/-
# Pages of a dead-letter queue (`server/src/routes.ts`)

`GET /queues/:name/dlq` turns two query strings into numbers and the numbers into the
inclusive indices of an `LRANGE`.  Pages with offsets `0`, `limit`, `2 * limit`, … give the
whole list (`slices_eq_take`, `ids_of_pages`).  A page has 200 jobs at most, but for the limits
that put the last index below zero while the first one is not: Redis counts such a last index
from the end of the list (`page_bounded_iff`).
-/
import NexusQueue.Alone
import NexusQueue.Auth
import NexusQueue.Double
import NexusQueue.Redis

namespace NexusQueue

open Double (Number fl)

namespace Dlq

/-! ## `Number(s)` -/

/-- A natural number in decimal digits, and nothing else. -/
def natural (cs : List Char) : Option ℕ :=
  if cs ≠ [] ∧ cs.all Char.isDigit then some (Nat.ofDigitChars 10 cs 0) else none

/-- The exponent at the end of a decimal literal; it may be missing. -/
def exponent : List Char → Option ℤ
  | [] => some 0
  | c :: cs =>
      if c ≠ 'e' ∧ c ≠ 'E' then none
      else
        match cs with
        | '-' :: ds => (natural ds).map fun n => -(n : ℤ)
        | '+' :: ds => (natural ds).map fun n => (n : ℤ)
        | ds => (natural ds).map fun n => (n : ℤ)

/-- A decimal literal: digits, perhaps a point and more digits, perhaps an exponent. -/
def decimal (cs : List Char) : Option ℚ :=
  let whole := cs.takeWhile Char.isDigit
  let rest := cs.dropWhile Char.isDigit
  let point := rest.head? = some '.'
  let places := if point then rest.tail.takeWhile Char.isDigit else []
  let rest := if point then rest.tail.dropWhile Char.isDigit else rest
  if whole = [] ∧ places = [] then none
  else
    (exponent rest).map fun e : ℤ =>
      (Nat.ofDigitChars 10 (whole ++ places) 0 : ℚ) * 10 ^ (e - (places.length : ℤ))

/-- A decimal literal or `Infinity`, without a sign. -/
def unsigned (cs : List Char) : Number :=
  if cs = "Infinity".toList then .inf false
  else
    match decimal cs with
    | none => .nan
    | some q => .ofRat q

/-- The value of a digit, letters being those after 9. -/
def digitValue (c : Char) : ℕ :=
  if c.isDigit then c.toNat - 48
  else if 'a' ≤ c ∧ c ≤ 'z' then c.toNat - 87
  else if 'A' ≤ c ∧ c ≤ 'Z' then c.toNat - 55
  else 36

/-- The digits of a number in another base, and nothing else. -/
def radix (b : ℕ) (cs : List Char) : Number :=
  if cs ≠ [] ∧ cs.all (digitValue · < b) then
    .ofRat ((cs.foldl (fun n c => b * n + digitValue c) 0 : ℕ) : ℚ)
  else .nan

/-- The base a literal starts with. -/
def base : List Char → Option ℕ
  | '0' :: c :: _ =>
      if c = 'x' ∨ c = 'X' then some 16
      else if c = 'o' ∨ c = 'O' then some 8
      else if c = 'b' ∨ c = 'B' then some 2
      else none
  | _ => none

/-- `Number(s)`. -/
def number (s : String) : Number :=
  let cs := (Auth.trim s.toList).toList
  if cs = [] then .fin 0
  else
    match base cs with
    | some b => radix b (cs.drop 2)
    | none =>
        match cs with
        | '-' :: ds => (unsigned ds).neg
        | '+' :: ds => unsigned ds
        | ds => unsigned ds

/-- `Number(q)` of a query value; one that is missing is `undefined`. -/
def queryNumber : Option String → Number
  | none => .nan
  | some s => number s

/-! ## The request -/

/-- The commands of the request.  The client sends the indices of an `LRANGE` as strings. -/
inductive Look where
  | llen (k : Key)
  | lrange (k : Key) (start stop : Number)
  | hgetall (k : Key)

/-- What the commands are answered with. -/
abbrev Look.Reply : Look → Type
  | .llen _ => ℕ
  | .lrange _ _ _ => List JobId
  | .hgetall _ => JobHash

/-- A job as the response shows it.  A number that is none is sent as `null`. -/
structure DlqJob where
  id : JobId
  queueName : QueueName
  jobName : String
  payload : Json
  status : JobStatus
  attempts : Option ℚ
  maxAttempts : Option ℚ
  errorMessage : Option String
  createdAt : Option Stamp
  startedAt : Option Stamp
  completedAt : Option Stamp

/-- `hash.payload ? JSON.parse(hash.payload) : null`. -/
def payloadOf (text : Option JsonText) : Except Err Json :=
  match text.filter JsonText.truthy with
  | none => .ok .null
  | some t => t.parse

/-- What the response says about the job of one entry. -/
def describe (name : QueueName) (id : JobId) (hash : JobHash) : Except Err DlqJob :=
  (payloadOf hash.payload).map fun payload =>
    { id := hash.id.getD id
      queueName := hash.queueName.getD name
      jobName := hash.jobName.getD ""
      payload := payload
      status := hash.status.getD .dlq
      attempts := (hash.attempts.getD (.of 0)).toNumber
      maxAttempts := (hash.maxAttempts.getD (.of 0)).toNumber
      errorMessage := truthy hash.errorMessage
      createdAt := hash.createdAt
      startedAt := hash.startedAt.filter (· ≠ .blank)
      completedAt := hash.completedAt.filter (· ≠ .blank) }

/-- The job of one entry is looked up. -/
def lookUp (name : QueueName) (id : JobId) : Prog Look Look.Reply Err DlqJob := do
  let hash ← Prog.perform (.hgetall (redisKeys.job id))
  match describe name id hash with
  | .ok job => pure job
  | .error e => throw e

/-- `Promise.all(jobIds.map(…))`. -/
def lookUpAll (name : QueueName) : List JobId → Prog Look Look.Reply Err (List DlqJob)
  | [] => pure []
  | id :: jobIds => do
      let job ← lookUp name id
      let jobs ← lookUpAll name jobIds
      pure (job :: jobs)

/-- `a || b`. -/
def orElse (a b : Number) : Number := if a.truthy then a else b

/-- `Math.min(Number(req.query.limit) || 50, 200)`. -/
def limitOf (limit : Option String) : Number := .min (orElse (queryNumber limit) (.fin 50)) (.fin 200)

/-- `Number(req.query.offset) || 0`. -/
def offsetOf (offset : Option String) : Number := orElse (queryNumber offset) (.fin 0)

/-- `offset + limit - 1`. -/
def lastOf (offset limit : Number) : Number := .sub (.add offset limit) (.fin 1)

/-- `GET /queues/:name/dlq`: the jobs and the length of the queue. -/
def get (name : QueueName) (limit offset : Option String) :
    Prog Look Look.Reply Err (List DlqJob × ℕ) := do
  let limit := limitOf limit
  let offset := offsetOf offset
  let total ← Prog.perform (.llen (redisKeys.dlq name))
  let jobIds ← Prog.perform (.lrange (redisKeys.dlq name) offset (lastOf offset limit))
  let jobs ← lookUpAll name jobIds
  pure (jobs, total)

/-! ## Answers -/

/-- The index Redis reads from the text of a number.  From `2 ^ 53` on that text has fewer
digits than the number, but every list ends long before. -/
def index : Number → Option ℤ
  | .fin q => if q.den = 1 ∧ |q| < 2 ^ 63 then some q.num else none
  | _ => none

/-- The answers of a server whose list and hashes the request finds as they are in `r`.  Any
command may be rejected. -/
def Serves (r : Redis) : (c : Look) → Except Err c.Reply → Prop
  | _, .error _ => True
  | .llen k, .ok n => n = (r.lists k).length
  | .lrange k start stop, .ok jobIds =>
      ∃ i j, index start = some i ∧ index stop = some j ∧ jobIds = r.lrange k i j
  | .hgetall k, .ok hash => hash = r.jobs k

/-- The request is answered with these jobs. -/
def Answers (r : Redis) (name : QueueName) (limit offset : Option String)
    (jobs : List DlqJob) : Prop :=
  ∃ total, Prog.Runs (fun _ c x _ => Serves r c x) () (get name limit offset)
    (.ok (jobs, total)) ()

/-- The jobs are what the hashes of the entries say, one for each entry and in their order. -/
def Describes (r : Redis) (name : QueueName) (jobs : List DlqJob) (jobIds : List JobId) : Prop :=
  List.Forall₂ (fun job id => describe name id (r.jobs (redisKeys.job id)) = .ok job) jobs jobIds

/-- A hash carries no other id than that of its job. -/
def OwnIds (r : Redis) : Prop := ∀ id x, (r.jobs (redisKeys.job id)).id = some x → x = id

/-- Then the jobs of the response carry the ids of the entries, in their order. -/
theorem Describes.ids {r : Redis} {name : QueueName} {jobs : List DlqJob} {jobIds : List JobId}
    (h : Describes r name jobs jobIds) (hown : OwnIds r) : jobs.map DlqJob.id = jobIds := by
  induction h with
  | nil => rfl
  | @cons job id jobs jobIds hjob _ ih =>
      rw [List.map_cons, ih]
      congr 1
      unfold describe at hjob
      cases hp : payloadOf (r.jobs (redisKeys.job id)).payload with
      | error e =>
          rw [hp] at hjob
          cases hjob
      | ok payload =>
          rw [hp] at hjob
          cases hjob
          show (r.jobs (redisKeys.job id)).id.getD id = id
          cases hid : (r.jobs (redisKeys.job id)).id with
          | none => rfl
          | some x => exact hown id x hid

/-- Redis holds no longer lists. -/
def maxListLength : ℕ := 2 ^ 32 - 1

/-- An index is the number it was read from. -/
theorem eq_fin_of_index {x : Number} {i : ℤ} (h : index x = some i) : x = .fin i := by
  cases x with
  | nan => cases h
  | inf a => cases h
  | fin q =>
      rw [index] at h
      split at h
      · rename_i hq
        cases h
        rw [Rat.coe_int_num_of_den_eq_one hq.1]
      · cases h

/-- What is looked up describes the entries. -/
theorem describes_lookUpAll (r : Redis) (name : QueueName) (jobIds : List JobId) :
    Prog.Ends (fun (_ : Unit) c x _ => Serves r c x) () (lookUpAll name jobIds)
      fun x _ => ∀ jobs, x = .ok jobs → Describes r name jobs jobIds := by
  induction jobIds with
  | nil =>
      refine Prog.ends_pure fun jobs h => ?_
      cases h
      exact .nil
  | cons id jobIds ih =>
      refine Prog.ends_bind
        (fun x _ => ∀ job, x = .ok job → describe name id (r.jobs (redisKeys.job id)) = .ok job)
        ?_ ?_ ?_
      · refine Prog.ends_step ?_ fun e _ _ => ?_
        · rintro _ _ rfl
          cases hjob : describe name id (r.jobs (redisKeys.job id)) with
          | ok job =>
              refine Prog.ends_pure fun job' h => ?_
              cases h
              rfl
          | error e => exact Prog.ends_throw fun job' h => by cases h
        · intro job' h
          cases h
      · intro job _ hjob
        refine Prog.ends_bind _ ih (fun jobs _ hjobs => ?_) fun e _ _ => ?_
        · refine Prog.ends_pure fun all h => ?_
          cases h
          exact .cons (hjob job rfl) (hjobs jobs rfl)
        · intro all h
          cases h
      · intro e _ _ jobs h
        cases h

/-- An answer describes the entries between two indices. -/
theorem range_of_answers {r : Redis} {name : QueueName} {limit offset : Option String}
    {jobs : List DlqJob} (h : Answers r name limit offset jobs) :
    ∃ i j, offsetOf offset = .fin (i : ℤ) ∧
      lastOf (offsetOf offset) (limitOf limit) = .fin (j : ℤ) ∧
      Describes r name jobs (r.lrange (redisKeys.dlq name) i j) := by
  obtain ⟨total, hrun⟩ := h
  have hends : Prog.Ends (fun (_ : Unit) c x _ => Serves r c x) () (get name limit offset)
      fun x _ => ∀ jobs total, x = .ok (jobs, total) →
        ∃ i j, offsetOf offset = .fin (i : ℤ) ∧
          lastOf (offsetOf offset) (limitOf limit) = .fin (j : ℤ) ∧
          Describes r name jobs (r.lrange (redisKeys.dlq name) i j) := by
    refine Prog.ends_step (fun total _ _ => ?_) fun e _ _ jobs total h => by cases h
    refine Prog.ends_step (fun jobIds _ hserves => ?_) fun e _ _ jobs total h => by cases h
    obtain ⟨i, j, hi, hj, rfl⟩ := hserves
    refine Prog.ends_bind _ (describes_lookUpAll r name _) (fun jobs _ hjobs => ?_)
      fun e _ _ jobs total h => by cases h
    refine Prog.ends_pure fun jobs' total' h => ?_
    cases h
    exact ⟨i, j, eq_fin_of_index hi, eq_fin_of_index hj, hjobs jobs rfl⟩
  exact hends _ _ hrun jobs total rfl

/-! ## The last index -/

/-- A limit is 200 at most. -/
theorem limit_le {limit : Option String} {n : ℚ} (h : limitOf limit = .fin n) : n ≤ 200 := by
  unfold limitOf at h
  generalize orElse (queryNumber limit) (.fin 50) = x at h
  rcases x with _ | a | q
  · cases h
  · cases a
    · cases h
      exact le_rfl
    · cases h
  · cases h
    exact min_le_right q 200

/-- The last index is the sum of the two numbers, rounded twice. -/
theorem last_eq {offset limit : Number} {i j : ℤ} (ho : offset = .fin (i : ℤ))
    (h : lastOf offset limit = .fin (j : ℤ)) :
    ∃ n, limit = .fin n ∧ (j : ℚ) = fl (fl (i + n) - 1) := by
  obtain ⟨x, hadd, hj⟩ := Double.Number.sub_eq_fin h
  obtain ⟨p, n, hp, hn, hx⟩ := Double.Number.add_eq_fin hadd
  rw [ho] at hp
  cases hp
  exact ⟨n, hn, by rw [hj, hx]⟩

/-- A bound on the sum is a bound on the last index. -/
theorem last_le {i j b : ℤ} {n : ℚ} (hj : (j : ℚ) = fl (fl (i + n) - 1))
    (hb : |b| < 2 ^ 51) (h : (i : ℚ) + n ≤ b) : j ≤ b - 1 := by
  obtain ⟨hlow, hhigh⟩ := abs_lt.mp hb
  have hsum : fl (i + n) ≤ b := Double.fl_le_int (abs_lt.mpr ⟨by omega, by omega⟩) h
  have hlast : (j : ℚ) ≤ ((b - 1 : ℤ) : ℚ) := by
    rw [hj]
    refine Double.fl_le_int (abs_lt.mpr ⟨by omega, by omega⟩) ?_
    push_cast
    linarith
  exact_mod_cast hlast

/-- Near zero the last index is the sum of the offset and the limit, rounded, less one. -/
theorem last_eq_round {i j : ℤ} {n : ℚ} (hj : (j : ℚ) = fl (fl (i + n) - 1))
    (h : |i + round n| < 2 ^ 50) : j = i + round n - 1 := by
  obtain ⟨hlow, hhigh⟩ := abs_lt.mp h
  have hround := abs_le.mp (abs_sub_round n)
  -- the sum lies within a half of an integer, and halves are rounded to themselves
  have hleft : ((2 * (i + round n) - 1 : ℤ) : ℚ) / 2 ≤ fl (i + n) := by
    rw [← Double.fl_half (abs_lt.mpr ⟨by omega, by omega⟩)]
    refine Double.fl_mono ?_
    push_cast
    linarith [hround.1]
  have hright : fl (i + n) ≤ ((2 * (i + round n) + 1 : ℤ) : ℚ) / 2 := by
    rw [← Double.fl_half (k := 2 * (i + round n) + 1) (abs_lt.mpr ⟨by omega, by omega⟩)]
    refine Double.fl_mono ?_
    push_cast
    linarith [hround.2]
  have hlast : ((2 * (i + round n) - 3 : ℤ) : ℚ) / 2 ≤ j := by
    rw [hj, ← Double.fl_half (abs_lt.mpr ⟨by omega, by omega⟩)]
    refine Double.fl_mono ?_
    push_cast at hleft ⊢
    linarith
  have hfirst : (j : ℚ) ≤ ((2 * (i + round n) - 1 : ℤ) : ℚ) / 2 := by
    rw [hj, ← Double.fl_half (k := 2 * (i + round n) - 1) (abs_lt.mpr ⟨by omega, by omega⟩)]
    refine Double.fl_mono ?_
    push_cast at hright ⊢
    linarith
  have hlow' : 2 * (i + round n) - 3 ≤ 2 * j := by
    have : ((2 * (i + round n) - 3 : ℤ) : ℚ) ≤ ((2 * j : ℤ) : ℚ) := by
      push_cast at hlast ⊢
      linarith
    exact_mod_cast this
  have hhigh' : 2 * j ≤ 2 * (i + round n) - 1 := by
    have : ((2 * j : ℤ) : ℚ) ≤ ((2 * (i + round n) - 1 : ℤ) : ℚ) := by
      push_cast at hfirst ⊢
      linarith
    exact_mod_cast this
  omega

/-! ## Pages are bounded -/

/-- The request reads past the bound: the offset is not negative, the limit puts the last
index below zero, and between the two are more than 200 entries. -/
def FromTheEnd (limit offset : Option String) (length : ℕ) : Prop :=
  ∃ o n, offsetOf offset = .fin o ∧ limitOf limit = .fin n ∧ 0 ≤ o ∧ o + round n ≤ 0 ∧
    200 < length + round n

/-- The number of entries between two indices. -/
theorem length_lrange (r : Redis) (k : Key) (i j : ℤ) :
    (r.lrange k i j).length =
      min ((if j < 0 then j + (r.lists k).length else j) + 1).toNat (r.lists k).length -
        (if i < 0 then (i + (r.lists k).length).toNat else i.toNat) := by
  rw [Redis.lrange, List.length_drop, List.length_take]

/-- What is between two indices is a slice. -/
theorem exists_slice (r : Redis) (k : Key) (i j : ℤ) :
    ∃ a b, r.lrange k i j = ((r.lists k).drop a).take b := by
  rw [Redis.lrange, List.drop_take]
  exact ⟨_, _, rfl⟩

/-- **How many entries a page has.**  More than 200 if the last index counts from the end and
the first one does not, and there are so many between. -/
theorem length_lrange_iff (r : Redis) (k : Key) {i j : ℤ} {n : ℚ} (hn : n ≤ 200)
    (hj : (j : ℚ) = fl (fl (i + n) - 1)) (hlen : (r.lists k).length ≤ maxListLength) :
    200 < (r.lrange k i j).length ↔
      0 ≤ i ∧ i + round n ≤ 0 ∧ 200 < ((r.lists k).length : ℤ) + round n := by
  rw [length_lrange]
  generalize (r.lists k).length = len at hlen ⊢
  have hlen' : len < 2 ^ 32 := by
    rw [maxListLength] at hlen
    omega
  have hround := abs_le.mp (abs_sub_round n)
  have hle : round n ≤ 200 := by
    have : ((round n : ℤ) : ℚ) < ((201 : ℤ) : ℚ) := by
      push_cast
      linarith [hround.1]
    have : round n < 201 := by exact_mod_cast this
    omega
  by_cases hfar : (2 : ℤ) ^ 40 ≤ i
  · -- the page starts behind the end of the list
    rw [if_neg (show ¬ i < 0 by omega)]
    constructor
    · intro h
      omega
    · rintro ⟨_, hsum, hmany⟩
      omega
  · by_cases hfront : i < -2 ^ 40
    · -- the page ends before the head of the list
      have hlast : j ≤ -2 ^ 40 + 200 - 1 := by
        refine last_le hj (by norm_num) ?_
        have : (i : ℚ) ≤ ((-2 ^ 40 : ℤ) : ℚ) := by exact_mod_cast hfront.le
        push_cast at this ⊢
        linarith
      rw [if_pos (show i < 0 by omega), if_pos (show j < 0 by omega)]
      omega
    · have hlast : j ≤ i + 200 - 1 := by
        refine last_le hj (abs_lt.mpr ⟨by omega, by omega⟩) ?_
        push_cast
        linarith
      by_cases hsmall : i + round n < -2 ^ 41
      · -- nothing that far from the end
        have hdeep : j ≤ -2 ^ 41 - 1 := by
          refine last_le hj (by norm_num) ?_
          have : ((i + round n : ℤ) : ℚ) ≤ ((-2 ^ 41 - 1 : ℤ) : ℚ) := by
            exact_mod_cast (show i + round n ≤ -2 ^ 41 - 1 by omega)
          push_cast at this ⊢
          linarith [hround.2]
        rw [if_pos (show j < 0 by omega)]
        split <;> omega
      · have heq := last_eq_round hj (abs_lt.mpr ⟨by omega, by omega⟩)
        split <;> split <;> omega

/-- A page describes as many entries as it has. -/
theorem length_of_describes {r : Redis} {name : QueueName} {jobs : List DlqJob}
    {jobIds : List JobId} (h : Describes r name jobs jobIds) : jobs.length = jobIds.length := h.length_eq

/-- The jobs of an answer are a slice of the queue, of 200 entries at most unless the request
reads past the bound. -/
theorem slice_of_answers {r : Redis} {name : QueueName} {limit offset : Option String}
    {jobs : List DlqJob} (hlen : (r.lists (redisKeys.dlq name)).length ≤ maxListLength)
    (h : Answers r name limit offset jobs) :
    (∃ a b, Describes r name jobs (((r.lists (redisKeys.dlq name)).drop a).take b)) ∧
      (200 < jobs.length ↔ FromTheEnd limit offset (r.lists (redisKeys.dlq name)).length) := by
  obtain ⟨i, j, ho, hlast, hdesc⟩ := range_of_answers h
  obtain ⟨n, hn, hj⟩ := last_eq ho hlast
  constructor
  · obtain ⟨a, b, hslice⟩ := exists_slice r (redisKeys.dlq name) i j
    exact ⟨a, b, hslice ▸ hdesc⟩
  · rw [length_of_describes hdesc, length_lrange_iff r _ (limit_le hn) hj hlen]
    constructor
    · rintro ⟨hpos, hsum, hmany⟩
      exact ⟨i, n, ho, hn, by exact_mod_cast hpos, by exact_mod_cast hsum, hmany⟩
    · rintro ⟨o, n', ho', hn', hpos, hsum, hmany⟩
      rw [ho] at ho'
      rw [hn] at hn'
      cases ho'
      cases hn'
      exact ⟨by exact_mod_cast hpos, by exact_mod_cast hsum, hmany⟩

/-! ## Pages make up the queue -/

/-- No digit is white space. -/
theorem isSpace_of_isDigit {c : Char} (h : c.isDigit = true) : Auth.isSpace c = false := by
  rw [Char.isDigit, Bool.and_eq_true, decide_eq_true_eq, decide_eq_true_eq] at h
  have hlow : 48 ≤ c.toNat := h.1
  have hhigh : c.toNat ≤ 57 := h.2
  simp [Auth.isSpace]
  omega

/-- Digits are not trimmed. -/
theorem trim_digits {cs : List Char} (h : ∀ c ∈ cs, c.isDigit = true) :
    (Auth.trim cs).toList = cs := by
  have hspace : ∀ c ∈ cs, Auth.isSpace c = false := fun c hc => isSpace_of_isDigit (h c hc)
  have hfront : cs.dropWhile Auth.isSpace = cs := by
    cases cs with
    | nil => rfl
    | cons c cs => rw [List.dropWhile_cons_of_neg (by simp [hspace c (.head _)])]
  have hback : cs.rdropWhile Auth.isSpace = cs := by
    rw [List.rdropWhile_eq_self_iff]
    intro hne
    simp [hspace _ (List.getLast_mem hne)]
  rw [Auth.trim, hfront, hback, String.toList_ofList]

/-- Digits are a decimal literal. -/
theorem decimal_digits {cs : List Char} (hne : cs ≠ []) (h : ∀ c ∈ cs, c.isDigit = true) :
    decimal cs = some (Nat.ofDigitChars 10 cs 0 : ℚ) := by
  have htake : cs.takeWhile Char.isDigit = cs := List.takeWhile_eq_self_iff.mpr h
  have hdrop : cs.dropWhile Char.isDigit = [] := List.dropWhile_eq_nil_iff.mpr h
  simp [decimal, htake, hdrop, hne, exponent]

/-- The text of a natural number is that number, rounded. -/
theorem number_toString (n : ℕ) : number (toString n) = .ofRat n := by
  have hchars : (toString n).toList = Nat.toDigits 10 n := Nat.toList_repr
  have hdigits : ∀ c ∈ Nat.toDigits 10 n, c.isDigit = true :=
    fun c hc => Nat.isDigit_of_mem_toDigits (by decide) (by decide) hc
  have hvalue : Nat.ofDigitChars 10 (Nat.toDigits 10 n) 0 = n := Nat.ofDigitChars_ten_toDigits
  have hne : Nat.toDigits 10 n ≠ [] := Nat.toDigits_ne_nil
  unfold number
  rw [hchars, trim_digits hdigits]
  generalize Nat.toDigits 10 n = cs at hdigits hvalue hne
  have hunsigned : unsigned cs = .ofRat n := by
    have hinf : cs ≠ "Infinity".toList := by
      rintro rfl
      exact absurd (hdigits 'I' (by decide)) (by decide)
    rw [unsigned, if_neg hinf, decimal_digits hne hdigits, hvalue]
  have hbase : base cs = none := by
    unfold base
    split
    · rename_i c _
      have hc := hdigits c (by simp)
      split_ifs with h₁ h₂ h₃
      · rcases h₁ with rfl | rfl <;> exact absurd hc (by decide)
      · rcases h₂ with rfl | rfl <;> exact absurd hc (by decide)
      · rcases h₃ with rfl | rfl <;> exact absurd hc (by decide)
      · rfl
    · rfl
  dsimp only
  rw [if_neg hne, hbase]
  dsimp only
  split
  · exact absurd (hdigits '-' (.head _)) (by decide)
  · exact absurd (hdigits '+' (.head _)) (by decide)
  · exact hunsigned

/-- A small number is a double. -/
theorem ofRat_natCast {n : ℕ} (h : n < 2 ^ 52) : Number.ofRat (n : ℚ) = .fin n := by
  rw [← Int.cast_natCast n]
  exact Double.Number.ofRat_int (abs_lt.mpr ⟨by omega, by omega⟩)

/-- A number of entries is a limit if it is in bounds. -/
theorem limitOf_toString {n : ℕ} (hpos : 0 < n) (hle : n ≤ 200) :
    limitOf (some (toString n)) = .fin n := by
  have htruthy : (Number.fin (n : ℚ)).truthy = true := by
    simp [Double.Number.truthy]
    omega
  have hmin : min (n : ℚ) 200 = n := min_eq_left (by exact_mod_cast hle)
  rw [limitOf, queryNumber, number_toString, ofRat_natCast (by omega), orElse, if_pos htruthy]
  show Number.fin (min (n : ℚ) 200) = _
  rw [hmin]

/-- An offset is the number that was written, unless that is far behind the end of any
list. -/
theorem offsetOf_toString {m : ℕ} {i : ℤ} (h : offsetOf (some (toString m)) = .fin (i : ℤ)) :
    i = m ∨ 2 ^ 51 ≤ i ∧ 2 ^ 51 ≤ m := by
  rw [offsetOf, queryNumber, number_toString, orElse] at h
  by_cases hm : m < 2 ^ 52
  · left
    rw [ofRat_natCast hm] at h
    by_cases htruthy : (Number.fin (m : ℚ)).truthy = true
    · rw [if_pos htruthy] at h
      injection h with h
      exact_mod_cast h.symm
    · have hzero : (m : ℚ) = 0 := by simpa [Double.Number.truthy] using htruthy
      rw [if_neg htruthy] at h
      injection h with h
      rw [← hzero] at h
      exact_mod_cast h.symm
  · right
    have hfl : ((2 ^ 51 : ℤ) : ℚ) ≤ fl (m : ℚ) := by
      refine Double.int_le_fl (by norm_num) ?_
      have : ((2 ^ 51 : ℕ) : ℚ) ≤ (m : ℚ) := by
        exact_mod_cast (show 2 ^ 51 ≤ m by omega)
      push_cast at this ⊢
      exact this
    refine ⟨?_, by omega⟩
    by_cases htruthy : (Number.ofRat (m : ℚ)).truthy = true
    · rw [if_pos htruthy] at h
      have hi : (i : ℚ) = fl m := Double.Number.eq_fl_of_ofRat h
      rw [← hi] at hfl
      exact_mod_cast hfl
    · exfalso
      unfold Double.Number.ofRat at htruthy
      by_cases hlarge : (2 : ℚ) ^ 1024 ≤ |fl (m : ℚ)|
      · rw [if_pos hlarge] at htruthy
        exact htruthy rfl
      · rw [if_neg hlarge] at htruthy
        have hzero : fl (m : ℚ) = 0 := by simpa [Double.Number.truthy] using htruthy
        rw [hzero] at hfl
        norm_num at hfl

/-- **A page.**  A limit in bounds and an offset give the entries from the offset on, as many
as the limit says. -/
theorem describes_page {r : Redis} {name : QueueName} {m n : ℕ} {jobs : List DlqJob}
    (hlen : (r.lists (redisKeys.dlq name)).length ≤ maxListLength) (hpos : 0 < n) (hle : n ≤ 200)
    (h : Answers r name (some (toString n)) (some (toString m)) jobs) :
    Describes r name jobs (((r.lists (redisKeys.dlq name)).drop m).take n) := by
  obtain ⟨i, j, ho, hlast, hdesc⟩ := range_of_answers h
  obtain ⟨q, hq, hj⟩ := last_eq ho hlast
  rw [limitOf_toString hpos hle] at hq
  cases hq
  have hoffset := offsetOf_toString ho
  suffices heq : r.lrange (redisKeys.dlq name) i j =
      ((r.lists (redisKeys.dlq name)).drop m).take n from heq ▸ hdesc
  rw [maxListLength] at hlen
  rw [Redis.lrange, if_neg (show ¬ i < 0 by omega)]
  generalize r.lists (redisKeys.dlq name) = l at hlen
  by_cases hfar : (2 : ℤ) ^ 40 ≤ i
  · -- both are behind the end of the list
    have hend : (l.take ((if j < 0 then j + l.length else j) + 1).toNat).length ≤ i.toNat := by
      rw [List.length_take]
      omega
    rw [List.drop_eq_nil_of_le hend, List.drop_eq_nil_of_le (by omega), List.take_nil]
  · have him : i = m := by omega
    have hround : round (n : ℚ) = n := round_natCast n
    have hlast := last_eq_round hj (by rw [hround]; exact abs_lt.mpr ⟨by omega, by omega⟩)
    rw [hround] at hlast
    rw [if_neg (show ¬ j < 0 by omega), show (j + 1).toNat = m + n by omega,
      show i.toNat = m by omega, List.drop_take, Nat.add_sub_cancel_left]

/-- **Pages make up the queue.**  Slices of `n` entries at the offsets `0`, `n`, `2 * n`, …
contain every entry once, in order. -/
theorem slices_eq_take (l : List JobId) (n k : ℕ) :
    ((List.range k).flatMap fun i => (l.drop (i * n)).take n) = l.take (k * n) := by
  induction k with
  | zero => rw [Nat.zero_mul, List.range_zero, List.flatMap_nil, List.take_zero]
  | succ k ih =>
      rw [List.range_succ, List.flatMap_append, List.flatMap_singleton, ih, Nat.succ_mul,
        List.take_add]

/-- If no hash carries a foreign id, then the pages show the ids of the queue in order, each
one as often as it is there. -/
theorem ids_of_pages {name : QueueName} {l : List JobId} {n k : ℕ} {stores : ℕ → Redis}
    {pages : ℕ → List DlqJob}
    (h : ∀ i < k, Describes (stores i) name (pages i) ((l.drop (i * n)).take n))
    (hown : ∀ i < k, OwnIds (stores i)) :
    ((List.range k).flatMap pages).map DlqJob.id = l.take (k * n) := by
  rw [← slices_eq_take, List.map_flatMap]
  apply List.flatMap_congr
  intro i hi
  rw [List.mem_range] at hi
  exact (h i hi).ids (hown i hi)

/-! ## Requests that are answered -/

/-- Entries are looked up if their payloads can be read. -/
theorem exists_lookUpAll (r : Redis) (name : QueueName) (jobIds : List JobId)
    (h : ∀ id ∈ jobIds, ∃ job, describe name id (r.jobs (redisKeys.job id)) = .ok job) :
    ∃ jobs, Prog.Runs (fun (_ : Unit) c x _ => Serves r c x) () (lookUpAll name jobIds)
      (.ok jobs) () := by
  induction jobIds with
  | nil => exact ⟨[], .ret⟩
  | cons id jobIds ih =>
      obtain ⟨jobs, hjobs⟩ := ih fun id' hid' => h id' (List.mem_cons_of_mem _ hid')
      obtain ⟨job, hdesc⟩ := h id (List.mem_cons_self ..)
      have hserves : Serves r (.hgetall (redisKeys.job id))
          (.ok (r.jobs (redisKeys.job id))) := rfl
      have hhash : Prog.Runs (fun (_ : Unit) c x _ => Serves r c x) ()
          (Prog.perform (.hgetall (redisKeys.job id))) (.ok (r.jobs (redisKeys.job id))) () :=
        .call hserves .ret
      have hjob : Prog.Runs (fun (_ : Unit) c x _ => Serves r c x) () (lookUp name id)
          (.ok job) () := by
        refine hhash.bind ?_
        simp only [hdesc]
        exact .ret
      exact ⟨_, hjob.bind (hjobs.bind .ret)⟩

/-- A request with two indices is answered if the payloads can be read. -/
theorem exists_answers (r : Redis) (name : QueueName) {limit offset : Option String} {i j : ℤ}
    (hi : index (offsetOf offset) = some i)
    (hj : index (lastOf (offsetOf offset) (limitOf limit)) = some j)
    (h : ∀ id, ∃ job, describe name id (r.jobs (redisKeys.job id)) = .ok job) :
    ∃ jobs, Answers r name limit offset jobs ∧
      Describes r name jobs (r.lrange (redisKeys.dlq name) i j) := by
  obtain ⟨jobs, hjobs⟩ := exists_lookUpAll r name (r.lrange (redisKeys.dlq name) i j)
    fun id _ => h id
  refine ⟨jobs, ⟨(r.lists (redisKeys.dlq name)).length, ?_⟩, ?_⟩
  · have hrest : Prog.Runs (fun (_ : Unit) c x _ => Serves r c x) ()
        (do let jobs ← lookUpAll name (r.lrange (redisKeys.dlq name) i j)
            pure (jobs, (r.lists (redisKeys.dlq name)).length))
        (.ok (jobs, (r.lists (redisKeys.dlq name)).length)) () := hjobs.bind .ret
    have hrange : Prog.Runs (fun (_ : Unit) c x _ => Serves r c x) ()
        (do let jobIds ← Prog.perform (.lrange (redisKeys.dlq name) (offsetOf offset)
              (lastOf (offsetOf offset) (limitOf limit)))
            let jobs ← lookUpAll name jobIds
            pure (jobs, (r.lists (redisKeys.dlq name)).length))
        (.ok (jobs, (r.lists (redisKeys.dlq name)).length)) () :=
      .call (r := .ok (r.lrange (redisKeys.dlq name) i j)) ⟨i, j, hi, hj, rfl⟩ hrest
    have hlen : Serves r (.llen (redisKeys.dlq name))
        (.ok (r.lists (redisKeys.dlq name)).length) := rfl
    exact .call hlen hrange
  · exact describes_lookUpAll r name _ _ _ hjobs jobs rfl

/-- The indices of a limit in bounds and an offset. -/
theorem indices_toString {m n : ℕ} (hpos : 0 < n) (hle : n ≤ 200) (hm : m < 2 ^ 40) :
    index (offsetOf (some (toString m))) = some (m : ℤ) ∧
      index (lastOf (offsetOf (some (toString m))) (limitOf (some (toString n)))) =
        some (m + n - 1 : ℤ) := by
  have hoffset : offsetOf (some (toString m)) = .fin m := by
    rw [offsetOf, queryNumber, number_toString, ofRat_natCast (by omega), orElse]
    by_cases hzero : m = 0
    · subst hzero
      rfl
    · rw [if_pos (by simpa [Double.Number.truthy] using hzero)]
  have hlast : lastOf (.fin m) (.fin n) = .fin (((m + n - 1 : ℤ)) : ℚ) := by
    have hsum := Double.Number.add_int (m := (m : ℤ)) (n := (n : ℤ))
      (abs_lt.mpr ⟨by omega, by omega⟩)
    have hdiff := Double.Number.add_int (m := (m + n : ℤ)) (n := -1)
      (abs_lt.mpr ⟨by omega, by omega⟩)
    push_cast at hsum hdiff
    rw [lastOf, hsum]
    push_cast
    rw [sub_eq_add_neg]
    exact hdiff
  have hindex : ∀ i : ℤ, |i| < 2 ^ 63 → index (.fin (i : ℚ)) = some i := by
    intro i hi
    rw [index, if_pos ⟨Rat.den_intCast i, by exact_mod_cast hi⟩, Rat.num_intCast]
  rw [hoffset, limitOf_toString hpos hle, hlast]
  refine ⟨?_, hindex _ (abs_lt.mpr ⟨by omega, by omega⟩)⟩
  have := hindex m (abs_lt.mpr ⟨by omega, by omega⟩)
  exact_mod_cast this

/-- A database whose dead-letter queue `emails` has these entries, and a hash for every
job. -/
def dead (l : List JobId) : Redis :=
  { lists := Function.update (fun _ => []) (redisKeys.dlq "emails") l
    jobs := fun
      | .job id => { id := some id, jobName := some ("send " ++ id) }
      | _ => {} }

/-- Each hash carries the id of its job. -/
theorem ownIds_dead (l : List JobId) : OwnIds (dead l) := fun _ _ h => (Option.some.inj h).symm

/-- They have no payload, which is read as `null`. -/
theorem describe_dead (l : List JobId) (id : JobId) :
    ∃ job, describe "emails" id ((dead l).jobs (redisKeys.job id)) = .ok job := ⟨_, rfl⟩

/-- **Pages are bounded slices, unless a page counts from the end.**  The jobs of an answer are
what the hashes of a slice of the queue say, entry by entry, with 200 entries at most, if and
only if the request does not put the last index below zero with the first one above; and the
pages of a limit in bounds are the successive slices of the queue, which make up the whole: if
no hash carries a foreign id, then they show the ids of its entries in order, each as often as
it is there. -/
theorem page_bounded_iff (name : QueueName) :
    (∀ (r : Redis) (limit offset : Option String) (jobs : List DlqJob),
      (r.lists (redisKeys.dlq name)).length ≤ maxListLength → Answers r name limit offset jobs →
      ((jobs.length ≤ 200 ∧
          ∃ a b, Describes r name jobs (((r.lists (redisKeys.dlq name)).drop a).take b)) ↔
        ¬ FromTheEnd limit offset (r.lists (redisKeys.dlq name)).length)) ∧
    ∀ (l : List JobId) (n : ℕ) (stores : ℕ → Redis) (pages : ℕ → List DlqJob) (k : ℕ),
      l.length ≤ maxListLength → 0 < n → n ≤ 200 →
      (∀ i < k, (stores i).lists (redisKeys.dlq name) = l ∧
        Answers (stores i) name (some (toString n)) (some (toString (i * n))) (pages i)) →
      (∀ i < k, Describes (stores i) name (pages i) ((l.drop (i * n)).take n)) ∧
        ((List.range k).flatMap fun i => (l.drop (i * n)).take n) = l.take (k * n) ∧
        ((∀ i < k, OwnIds (stores i)) →
          ((List.range k).flatMap pages).map DlqJob.id = l.take (k * n)) := by
  constructor
  · intro r limit offset jobs hlen hanswer
    obtain ⟨hslice, hmany⟩ := slice_of_answers hlen hanswer
    rw [← hmany, not_lt, and_iff_left hslice]
  · intro l n stores pages k hlen hpos hle h
    have hpages : ∀ i < k, Describes (stores i) name (pages i) ((l.drop (i * n)).take n) := by
      intro i hi
      obtain ⟨hl, hanswer⟩ := h i hi
      rw [← hl] at hlen ⊢
      exact describes_page hlen hpos hle hanswer
    exact ⟨hpages, slices_eq_take l n k, ids_of_pages hpages⟩

/-- Three entries on two pages: the first one has two jobs, and the two together have the ids
of the entries in order. -/
theorem page_bounded_two : ∃ pages : ℕ → List DlqJob,
    (∀ i < 2, Answers (dead ["a", "b", "c"]) "emails" (some (toString 2))
      (some (toString (i * 2))) (pages i)) ∧
    (pages 0).length ≤ 200 ∧
    (pages 0).map DlqJob.id = ["a", "b"] ∧
    ((List.range 2).flatMap pages).map DlqJob.id = ["a", "b", "c"] := by
  have hlists : (dead ["a", "b", "c"]).lists (redisKeys.dlq "emails") = ["a", "b", "c"] := by
    simp [dead]
  have hpage : ∀ i, ∃ jobs, i < 2 → Answers (dead ["a", "b", "c"]) "emails" (some (toString 2))
      (some (toString (i * 2))) jobs := by
    intro i
    by_cases hi : i < 2
    · obtain ⟨hfirst, hlast⟩ := indices_toString (m := i * 2) (n := 2) (by decide) (by decide)
        (by omega)
      obtain ⟨jobs, hanswer, -⟩ := exists_answers _ "emails" hfirst hlast (describe_dead _)
      exact ⟨jobs, fun _ => hanswer⟩
    · exact ⟨[], fun h => absurd h hi⟩
  choose pages hpages using hpage
  have hbound : (pages 0).length ≤ 200 := by
    refine (((page_bounded_iff "emails").1 _ _ _ _ ?_ (hpages 0 (by decide))).mpr ?_).1
    · rw [hlists]
      decide
    · rintro ⟨o, n, -, hn, hpos, hsum, -⟩
      rw [limitOf_toString (by decide) (by decide)] at hn
      cases hn
      rw [show round ((2 : ℕ) : ℚ) = 2 from round_natCast 2] at hsum
      push_cast at hsum
      linarith
  obtain ⟨hslices, -, hids⟩ := (page_bounded_iff "emails").2 ["a", "b", "c"] 2
    (fun _ => dead ["a", "b", "c"]) pages 2 (by decide) (by decide) (by decide)
    fun i hi => ⟨hlists, hpages i hi⟩
  refine ⟨pages, hpages, hbound, ?_, hids fun _ _ => ownIds_dead _⟩
  exact (hslices 0 (by decide)).ids (ownIds_dead _)

/-- The first and the last index of the limit `-1` without an offset. -/
theorem indices_minus_one : index (offsetOf none) = some 0 ∧
    index (lastOf (offsetOf none) (limitOf (some "-1"))) = some (-2) := by
  have hoffset : offsetOf none = .fin 0 := rfl
  have hone : Number.ofRat 1 = .fin 1 := by
    have := ofRat_natCast (n := 1) (by norm_num)
    rwa [Nat.cast_one] at this
  have hnumber : number "-1" = .fin (-1) := by
    have hchars : (Auth.trim "-1".toList).toList = ['-', '1'] := by decide
    have hunsigned : unsigned ['1'] = .fin 1 := by
      have hdigits : decimal ['1'] = some ((Nat.ofDigitChars 10 ['1'] 0 : ℕ) : ℚ) :=
        decimal_digits (List.cons_ne_nil _ _) fun c hc => by
          cases List.mem_singleton.mp hc
          rfl
      rw [unsigned, if_neg (by decide), hdigits]
      exact hone
    unfold number
    rw [hchars]
    show (unsigned ['1']).neg = _
    rw [hunsigned]
    rfl
  have htruthy : (Number.fin (-1)).truthy = true := rfl
  have hlimit : limitOf (some "-1") = .fin (-1) := by
    rw [limitOf, queryNumber, hnumber, orElse, if_pos htruthy]
    show Number.fin (min (-1) 200) = _
    norm_num
  have hlast : lastOf (.fin 0) (.fin (-1)) = .fin (-2) := by
    have hsum : Number.add (.fin 0) (.fin (-1)) = .fin (-1) := by
      have := Double.Number.add_int (m := 0) (n := -1) (by norm_num)
      norm_num at this
      exact this
    have hdiff : Number.add (.fin (-1)) (.fin (-1)) = .fin (-2) := by
      have := Double.Number.add_int (m := -1) (n := -1) (by norm_num)
      norm_num at this
      exact this
    rw [lastOf, hsum]
    exact hdiff
  rw [hoffset, hlimit, hlast]
  constructor
  · rfl
  · decide

/-- The limit `-1` gives 201 of 202 entries. -/
theorem unbounded_minus_one : ∃ (r : Redis) (jobs : List DlqJob),
    (r.lists (redisKeys.dlq "emails")).length = 202 ∧
    Answers r "emails" (some "-1") none jobs ∧ ¬ jobs.length ≤ 200 := by
  obtain ⟨hi, hj⟩ := indices_minus_one
  obtain ⟨jobs, hanswer, hdesc⟩ :=
    exists_answers (dead ((List.range 202).map toString)) "emails" hi hj (describe_dead _)
  have hlen : ((dead ((List.range 202).map toString)).lists (redisKeys.dlq "emails")).length =
      202 := by
    simp [dead]
  refine ⟨_, jobs, hlen, hanswer, ?_⟩
  rw [length_of_describes hdesc, length_lrange, hlen]
  decide

end Dlq

end NexusQueue
