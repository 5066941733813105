/-
# Paging through a queue (`GET /queues/:name/jobs`, `dashboard/src/pages/QueueDetail.tsx`)

The request counts the rows of a queue and then selects a page of them, newest first, by
`LIMIT` and `OFFSET`.  The page of the dashboard shows twenty jobs, and its button `Next` adds
twenty to the offset until the total of the last answer is reached.

Rows are only ever added, and new rows come first, so while somebody goes through the pages
the rows move backwards.  A job may be shown twice then, but none is missed (`misses_none`);
in a table to which nothing is added every job is shown once (`shows_each_once`).
-/
import NexusQueue.Dlq
import NexusQueue.Effects
import NexusQueue.Simulation
import NexusQueue.System

namespace NexusQueue

open Prog (Runs Ends)
open Double (Number)

namespace QueueDetail

/-! ## Rows in descending order -/

section Ordered

variable {α : Type} {f : α → ℕ} {rows l : List α} {a : α}

/-- The rows, in descending order of `f`; the order of equal ones is open. -/
structure Descending (f : α → ℕ) (rows l : List α) : Prop where
  perm : l.Perm rows
  ordered : l.Pairwise fun a b => f b ≤ f a

/-- The number of rows before a row that no other one equals. -/
def position (f : α → ℕ) (rows : List α) (a : α) : ℕ := rows.countP fun b => f a < f b

/-- There it is. -/
theorem Descending.get (h : Descending f rows l) (hnodup : rows.Nodup) (ha : a ∈ rows)
    (hone : ∀ b ∈ rows, f b = f a → b = a) : l[position f rows a]? = some a := by
  have hmem : a ∈ l := h.perm.mem_iff.mpr ha
  obtain ⟨l₁, l₂, rfl⟩ := List.append_of_mem hmem
  have hnodup' : (l₁ ++ a :: l₂).Nodup := h.perm.nodup_iff.mpr hnodup
  obtain ⟨-, htail, hbefore⟩ := List.pairwise_append.mp h.ordered
  have hafter := (List.pairwise_cons.mp htail).1
  have hfirst : l₁.countP (fun b => f a < f b) = l₁.length := by
    rw [List.countP_eq_length]
    intro b hb
    have hle : f a ≤ f b := hbefore b hb a List.mem_cons_self
    have hne : f b ≠ f a := by
      intro heq
      have hba : b = a := hone b (h.perm.mem_iff.mp (List.mem_append_left _ hb)) heq
      exact (List.nodup_append.mp hnodup').2.2 b hb a List.mem_cons_self hba
    exact decide_eq_true (by omega)
  have hlast : l₂.countP (fun b => f a < f b) = 0 := by
    rw [List.countP_eq_zero]
    intro b hb
    have hle : f b ≤ f a := hafter b hb
    simpa using hle
  have hposition : position f rows a = l₁.length := by
    rw [position, ← h.perm.countP_eq, List.countP_append, List.countP_cons, hfirst, hlast]
    simp
  rw [hposition, List.getElem?_append_right le_rfl, Nat.sub_self]
  rfl

/-- It is on the page that this position belongs to. -/
theorem Descending.mem_page (h : Descending f rows l) (hnodup : rows.Nodup) (ha : a ∈ rows)
    (hone : ∀ b ∈ rows, f b = f a → b = a) {offset limit : ℕ}
    (hfrom : offset ≤ position f rows a) (hto : position f rows a < offset + limit) :
    a ∈ (l.drop offset).take limit := by
  have hget := h.get hnodup ha hone
  refine List.mem_of_getElem? (i := position f rows a - offset) ?_
  rw [List.getElem?_take_of_lt (by omega), List.getElem?_drop,
    Nat.add_sub_cancel' hfrom]
  exact hget

/-- Rows that are added only move it backwards. -/
theorem position_le_append (f : α → ℕ) (rows new : List α) (a : α) :
    position f rows a ≤ position f (rows ++ new) a := by
  unfold position
  rw [List.countP_append]
  omega

/-- It has a position within the table. -/
theorem position_lt (ha : a ∈ rows) : position f rows a < rows.length := by
  unfold position
  have hle := List.countP_le_length (p := fun b => decide (f a < f b)) (l := rows)
  by_contra hge
  have hall : rows.countP (fun b => f a < f b) = rows.length := by omega
  have hself := List.countP_eq_length.mp hall a ha
  simp at hself

end Ordered

/-! ## The request -/

/-- The text of a status. -/
def statusText : JobStatus → String
  | .pending => "pending"
  | .active => "active"
  | .completed => "completed"
  | .failed => "failed"
  | .delayed => "delayed"
  | .dlq => "dlq"

def validStatuses : List String := ["pending", "active", "completed", "failed", "dlq", "delayed"]

/-- The statements of the request. -/
inductive Query where
  | count (name : QueueName) (status : Option String)
  | page (name : QueueName) (status : Option String) (limit offset : Number)

/-- What they are answered with. -/
abbrev Query.Reply : Query → Type
  | .count _ _ => ℕ
  | .page _ _ _ _ => List JobRow

/-- A job as the response shows it. -/
structure Job where
  id : JobId
  queueName : QueueName
  jobName : String
  payload : Json
  status : JobStatus
  attempts : ℤ
  maxAttempts : ℤ
  errorMessage : Option String
  createdAt : ℕ
  startedAt : Option ℕ
  completedAt : Option ℕ

/-- The job of a row. -/
def describe (row : JobRow) : Job where
  id := row.id
  queueName := row.queueName
  jobName := row.jobName
  payload := row.payload
  status := row.status
  attempts := row.attempts
  maxAttempts := row.maxAttempts
  errorMessage := row.errorMessage
  createdAt := row.createdAt
  startedAt := row.startedAt
  completedAt := row.completedAt

/-- The response. -/
inductive Response where
  | invalidStatus (message : String)
  | listed (jobs : List Job) (total : ℕ)

/-- `GET /queues/:name/jobs`. -/
def get (name : QueueName) (status limit offset : Option String) :
    Prog Query Query.Reply Err Response := do
  let status := truthy status
  if ∃ st ∈ status, st ∉ validStatuses then
    pure (.invalidStatus ("status must be one of: " ++ ", ".intercalate validStatuses))
  else
    let limit := Dlq.limitOf limit
    let offset := Dlq.offsetOf offset
    let total ← Prog.perform (Query.count name status)
    let rows ← Prog.perform (Query.page name status limit offset)
    pure (.listed (List.map describe rows) total)

/-- The rows that the `WHERE` clause selects. -/
def selected (db : Postgres) (name : QueueName) (status : Option String) : List JobRow :=
  db.rows.filter fun r => r.queueName = name ∧ ∀ st ∈ status, statusText r.status = st

/-- What Postgres answers.  A limit or an offset that is no number of rows is refused. -/
def Serves (db : Postgres) : (q : Query) → Except Err q.Reply → Prop
  | _, .error _ => True
  | .count name status, .ok total => total = (selected db name status).length
  | .page name status limit offset, .ok rows => ∃ (n m : ℕ) (l : List JobRow),
      Dlq.index limit = some (n : ℤ) ∧ Dlq.index offset = some (m : ℤ) ∧
        Descending JobRow.createdAt (selected db name status) l ∧ rows = (l.drop m).take n

/-! ## The deployment goes on meanwhile -/

variable {env : Env} {c c' : State} {name : QueueName}

/-- Any run of the deployment leads from `c` to `c'`. -/
def Later (env : Env) (c c' : State) : Prop := (machine env).Reach Anything (· = c) c'

/-- A statement is answered some time later. -/
def asks (env : Env) (c : State) (q : Query) (x : Except Err q.Reply) (c' : State) : Prop :=
  Later env c c' ∧ Serves c'.store.pg q x

/-- What an `UPDATE` leaves of a row. -/
def fixed (r : JobRow) : JobId × QueueName × ℕ := (r.id, r.queueName, r.createdAt)

/-- The rows there are stay, and rows are only added behind them. -/
theorem fixed_prefix_of_answer {s s' : World} {o : Oracle} {cmd : Cmd} {r : Except Err cmd.Resp}
    (h : World.answer env s o cmd = some (r, s')) :
    s.pg.rows.map fixed <+: s'.pg.rows.map fixed := by
  cases cmd with
  | insert row =>
      simp only [World.answer] at h
      split at h
      · rename_i db hdb
        cases h
        obtain ⟨payload, maxAttempts, -, -, hrows, -⟩ := Postgres.insert_ok hdb
        show _ <+: db.rows.map fixed
        rw [hrows, List.map_append]
        exact List.prefix_append _ _
      · cases h
        exact List.prefix_rfl
  | update id p =>
      cases h
      show _ <+: (s.pg.rows.map fun r =>
        if Uuid.normal id = some r.id then r.patch s.clock p else r).map fixed
      rw [List.map_map]
      have hsame : (fixed ∘ fun r : JobRow =>
          if Uuid.normal id = some r.id then r.patch s.clock p else r) = fixed := by
        funext r
        show fixed (if Uuid.normal id = some r.id then r.patch s.clock p else r) = fixed r
        split
        · rfl
        · rfl
      rw [hsame]
  | onWorker w op =>
      obtain ⟨obj, rfl⟩ := answer_onWorker h
      exact List.prefix_rfl
  | _ =>
      simp only [World.answer] at h
      repeat' split at h
      all_goals first | (cases h; exact List.prefix_rfl) | cases h

/-- **Run lemma.** -/
theorem Later.fixed_prefix (h : Later env c c') :
    c.store.pg.rows.map fixed <+: c'.store.pg.rows.map fixed := by
  induction h with
  | init hc =>
      rw [hc]
  | @step c₁ c₂ ch _ _ hs ih =>
      refine ih.trans ?_
      cases ch with
      | start t =>
          cases hs
          exact List.prefix_rfl
      | call i o =>
          obtain ⟨p, cmd, k, r, s', -, -, -, hex, rfl⟩ := Machine.step_call hs
          rcases (exec_cases hex).2 with ⟨err, -, -, rfl, rfl⟩ | ⟨-, ha⟩
          · exact List.prefix_rfl
          · exact fixed_prefix_of_answer ha
      | halt i =>
          obtain ⟨p, -, rfl⟩ := Machine.step_halt hs
          exact List.prefix_rfl
      | drift m =>
          obtain ⟨s', hm, rfl⟩ := Machine.step_drift hs
          cases m <;> cases hm <;> exact List.prefix_rfl

/-- The rows of a queue, but for what changes. -/
def entries (db : Postgres) (name : QueueName) : List (JobId × QueueName × ℕ) :=
  (db.rows.map fixed).filter fun a => a.2.1 = name

theorem map_selected (db : Postgres) (name : QueueName) :
    (selected db name none).map fixed = entries db name := by
  rw [entries, List.filter_map]
  unfold selected
  congr 1
  refine List.filter_congr fun r _ => decide_eq_decide.mpr ?_
  simp [fixed]

/-- A queue grows at its end. -/
theorem Later.grows (h : Later env c c') (name : QueueName) :
    ∃ new, entries c'.store.pg name = entries c.store.pg name ++ new := by
  obtain ⟨new, hnew⟩ := h.fixed_prefix
  refine ⟨new.filter fun a => a.2.1 = name, ?_⟩
  rw [entries, entries, ← hnew, List.filter_append]

theorem nodup_entries (db : Postgres) (name : QueueName) : (entries db name).Nodup := by
  refine List.Nodup.filter _ (List.Nodup.of_map Prod.fst ?_)
  rw [List.map_map]
  exact db.primaryKey

/-- The commands of the request, without a status. -/
theorem get_spec {limit offset : Option String} {jobs : List Job} {total : ℕ}
    (h : Runs (asks env) c (get name none limit offset) (.ok (.listed jobs total)) c') :
    ∃ c₁ l, ∃ n m : ℕ, Later env c c₁ ∧ total = (selected c₁.store.pg name none).length ∧
      Later env c₁ c' ∧ Dlq.index (Dlq.limitOf limit) = some (n : ℤ) ∧
      Dlq.index (Dlq.offsetOf offset) = some (m : ℤ) ∧
      Descending JobRow.createdAt (selected c'.store.pg name none) l ∧
      jobs = ((l.drop m).take n).map describe := by
  have hends : Ends (asks env) c (get name none limit offset) fun x c' =>
      ∀ jobs total, x = .ok (.listed jobs total) →
        ∃ c₁ l, ∃ n m : ℕ, Later env c c₁ ∧ total = (selected c₁.store.pg name none).length ∧
          Later env c₁ c' ∧ Dlq.index (Dlq.limitOf limit) = some (n : ℤ) ∧
          Dlq.index (Dlq.offsetOf offset) = some (m : ℤ) ∧
          Descending JobRow.createdAt (selected c'.store.pg name none) l ∧
          jobs = ((l.drop m).take n).map describe := by
    unfold get
    rw [if_neg (by rintro ⟨st, hst, -⟩; cases hst)]
    refine Prog.ends_step (fun total c₁ hcount => ?_) fun e c₁ _ jobs total hx => by cases hx
    refine Prog.ends_step (fun rows c₂ hpage => ?_) fun e c₂ _ jobs total hx => by cases hx
    refine Prog.ends_pure fun jobs total' hx => ?_
    cases hx
    obtain ⟨hbefore, htotal⟩ := hcount
    obtain ⟨hafter, n, m, l, hn, hm, hl, rfl⟩ := hpage
    exact ⟨c₁, l, n, m, hbefore, htotal, hafter, hn, hm, hl, rfl⟩
  exact hends _ _ h jobs total rfl

/-! ## The page of the dashboard -/

def PAGE_SIZE : ℕ := 20

/-- The state of the component. -/
structure View where
  status : String := "all"
  offset : ℕ := 0
  jobs : List Job := []
  total : ℕ := 0

/-- `Math.ceil(total / PAGE_SIZE)` -/
def View.totalPages (v : View) : ℕ := (v.total + (PAGE_SIZE - 1)) / PAGE_SIZE

/-- `Math.floor(offset / PAGE_SIZE) + 1` -/
def View.currentPage (v : View) : ℕ := v.offset / PAGE_SIZE + 1

/-- The button `Next`, if it is shown and enabled. -/
def View.next? (v : View) : Option View :=
  if 1 < v.totalPages ∧ v.currentPage < v.totalPages then
    some { v with offset := v.offset + PAGE_SIZE }
  else none

/-- The jobs of the current page are loaded. -/
inductive Loads (env : Env) (name : QueueName) (v : View) (c : State) : View → State → Prop
  | loads {jobs : List Job} {total : ℕ} {c' : State} :
      Runs (asks env) c (get name (if v.status = "all" then none else some v.status)
        (some (toString PAGE_SIZE)) (some (toString v.offset))) (.ok (.listed jobs total)) c' →
      Loads env name v c { v with jobs := jobs, total := total } c'

/-- Somebody goes from page to page, until `Next` is disabled, and sees these jobs. -/
inductive Browses (env : Env) (name : QueueName) : View → State → List Job → View → State → Prop
  | last {v c v' c'} : Loads env name v c v' c' → v'.next? = none →
      Browses env name v c v'.jobs v' c'
  | next {v c v₁ c₁ v₂ c₂ jobs v' c'} : Loads env name v c v₁ c₁ → v₁.next? = some v₂ →
      Later env c₁ c₂ → Browses env name v₂ c₂ jobs v' c' →
      Browses env name v c (v₁.jobs ++ jobs) v' c'

/-- The number that a limit stands for. -/
theorem limit_eq {k n : ℕ} (hpos : 0 < k) (hle : k ≤ 200)
    (h : Dlq.index (Dlq.limitOf (some (toString k))) = some (n : ℤ)) : n = k := by
  rw [Dlq.limitOf_toString hpos hle] at h
  have hfin := Dlq.eq_fin_of_index h
  injection hfin with hfin
  exact_mod_cast hfin.symm

/-- The number that an offset stands for. -/
theorem offset_eq {k m : ℕ} (hk : k < 2 ^ 51)
    (h : Dlq.index (Dlq.offsetOf (some (toString k))) = some (m : ℤ)) : m = k := by
  rcases Dlq.offsetOf_toString (Dlq.eq_fin_of_index h) with heq | ⟨-, hlarge⟩
  · exact_mod_cast heq
  · omega

/-- A table has at most this many rows: 291 on each of `2 ^ 32 - 1` pages. -/
def maxRows : ℕ := 291 * (2 ^ 32 - 1)

/-- What has been loaded. -/
theorem Loads.spec {v v' : View} (h : Loads env name v c v' c') (hall : v.status = "all")
    (hoffset : v.offset < 2 ^ 51) :
    ∃ c₁ l, Later env c c₁ ∧ Later env c₁ c' ∧ v'.status = "all" ∧ v'.offset = v.offset ∧
      v'.total = (entries c₁.store.pg name).length ∧
      Descending (·.2.2) (entries c'.store.pg name) l ∧
      v'.jobs.map Job.id = ((l.drop v.offset).take PAGE_SIZE).map Prod.fst := by
  cases h with
  | @loads jobs total c' hrun =>
      rw [if_pos hall] at hrun
      have hspec := get_spec hrun
      obtain ⟨c₁, l, n, m, hbefore, htotal, hafter, hn, hm, hl, hjobs⟩ := hspec
      have hlimit : n = PAGE_SIZE := limit_eq (by decide) (by decide) hn
      have hstart : m = v.offset := offset_eq hoffset hm
      rw [hlimit, hstart] at hjobs
      refine ⟨c₁, l.map fixed, hbefore, hafter, hall, rfl, ?_, ?_, ?_⟩
      · show total = _
        rw [htotal, ← map_selected, List.length_map]
      · refine ⟨?_, ?_⟩
        · rw [← map_selected]
          exact hl.perm.map fixed
        · exact List.pairwise_map.mpr hl.ordered
      · show jobs.map Job.id = _
        rw [hjobs, List.map_map, ← List.map_drop, ← List.map_take, List.map_map]
        rfl

/-! ## No job is missed -/

section Browse

variable {v v' : View} {jobs : List Job} {a : JobId × QueueName × ℕ}

/-- `Next` is disabled on the last page. -/
theorem total_le_of_next? (h : v.next? = none) : v.total ≤ v.offset + PAGE_SIZE := by
  unfold View.next? View.totalPages View.currentPage PAGE_SIZE at h
  unfold PAGE_SIZE
  split at h
  · cases h
  · omega

theorem Later.trans {c₁ c₂ c₃ : State} (h : Later env c₁ c₂) (h' : Later env c₂ c₃) :
    Later env c₁ c₃ := Machine.Reach.trans h h'

/-- A request takes time. -/
theorem later_of_runs {α : Type} {p : Prog Query Query.Reply Err α} {x : Except Err α}
    (h : Runs (asks env) c p x c') : Later env c c' := by
  induction h with
  | ret => exact .init rfl
  | raise => exact .init rfl
  | call hone _ ih => exact hone.1.trans ih

theorem Browses.later (h : Browses env name v c jobs v' c') : Later env c c' := by
  induction h with
  | last hload _ =>
      cases hload with
      | loads hrun => exact later_of_runs hrun
  | next hload _ hlater _ ih =>
      cases hload with
      | loads hrun => exact (later_of_runs hrun).trans (hlater.trans ih)

/-- `Next` leaves the filter alone, and turns over one page. -/
theorem next?_spec (h : v.next? = some v') :
    v'.status = v.status ∧ v'.offset = v.offset + PAGE_SIZE := by
  obtain ⟨-, h⟩ := Option.ite_none_right_eq_some.mp h
  cases h
  exact ⟨rfl, rfl⟩

/-- A row is in the table for good. -/
theorem Later.mem (h : Later env c c') (ha : a ∈ entries c.store.pg name) :
    a ∈ entries c'.store.pg name := by
  obtain ⟨new, hnew⟩ := h.grows name
  rw [hnew]
  exact List.mem_append_left _ ha

/-- Its position does not decrease. -/
theorem Later.position_le (h : Later env c c') (name : QueueName)
    (a : JobId × QueueName × ℕ) :
    position (·.2.2) (entries c.store.pg name) a ≤
      position (·.2.2) (entries c'.store.pg name) a := by
  obtain ⟨new, hnew⟩ := h.grows name
  rw [hnew]
  exact position_le_append ..

/-- The table does not shrink. -/
theorem Later.length_le (h : Later env c c') (name : QueueName) :
    (entries c.store.pg name).length ≤ (entries c'.store.pg name).length := by
  obtain ⟨new, hnew⟩ := h.grows name
  rw [hnew, List.length_append]
  exact Nat.le_add_right ..

/-- **One page.**  A row that is not on it, nor before it, is behind it. -/
theorem Loads.shows (h : Loads env name v c v' c') (hall : v.status = "all")
    (hoffset : v.offset < 2 ^ 51)
    (hone : ∀ b ∈ entries c'.store.pg name, b.2.2 = a.2.2 → b = a)
    (ha : a ∈ entries c.store.pg name)
    (hfrom : v.offset ≤ position (·.2.2) (entries c.store.pg name) a) :
    a.1 ∈ v'.jobs.map Job.id ∨
      v.offset + PAGE_SIZE ≤ position (·.2.2) (entries c'.store.pg name) a := by
  obtain ⟨c₁, l, hbefore, hafter, -, -, -, hl, hjobs⟩ := h.spec hall hoffset
  have hlater : Later env c c' := hbefore.trans hafter
  have hfrom' := hfrom.trans (hlater.position_le name a)
  by_cases hto : position (·.2.2) (entries c'.store.pg name) a < v.offset + PAGE_SIZE
  · left
    rw [hjobs]
    refine List.mem_map_of_mem ?_
    exact hl.mem_page (nodup_entries _ _) (hlater.mem ha) hone hfrom' hto
  · right
    omega

/-- **Run lemma.**  A row that is not on the pages gone through already is on one of the pages
to come, or the queue has outgrown the total on the last one. -/
theorem Browses.shows (h : Browses env name v c jobs v' c') (hall : v.status = "all")
    (hrows : (entries c'.store.pg name).length ≤ maxRows)
    (hone : ∀ b ∈ entries c'.store.pg name, b.2.2 = a.2.2 → b = a)
    (ha : a ∈ entries c.store.pg name)
    (hfrom : v.offset ≤ position (·.2.2) (entries c.store.pg name) a) :
    a.1 ∈ jobs.map Job.id ∨ v'.total < (entries c'.store.pg name).length := by
  have hoffset : ∀ {c₀ : State} {k : ℕ}, a ∈ entries c₀.store.pg name → Later env c₀ c' →
      k ≤ position (·.2.2) (entries c₀.store.pg name) a → k < 2 ^ 51 := by
    intro c₀ k hmem hlater hk
    have hlt := position_lt (f := fun b : JobId × QueueName × ℕ => b.2.2) (hlater.mem hmem)
    have hle := hlater.position_le name a
    unfold maxRows at hrows
    omega
  induction h with
  | @last v c v' c' hload hnext =>
      have hlater : Later env c c' := (Browses.last hload hnext).later
      have hsmall := hoffset ha hlater hfrom
      rcases hload.shows hall hsmall hone ha hfrom with hshown | hbehind
      · exact Or.inl hshown
      · right
        obtain ⟨c₁, l, -, -, -, heq, -⟩ := hload.spec hall hsmall
        have htotal := total_le_of_next? hnext
        have hlt := position_lt (f := fun b : JobId × QueueName × ℕ => b.2.2) (hlater.mem ha)
        omega
  | @next v c v₁ c₁ v₂ c₂ jobs v' c' hload hnext hlater hrest ih =>
      have hend : Later env c₁ c' := hlater.trans hrest.later
      have hstart : Later env c c₁ := by
        cases hload with
        | loads hrun => exact later_of_runs hrun
      have hsmall := hoffset ha (hstart.trans hend) hfrom
      have hone' : ∀ b ∈ entries c₁.store.pg name, b.2.2 = a.2.2 → b = a :=
        fun b hb => hone b (hend.mem hb)
      obtain ⟨c₀, l, -, -, hall', heq, -⟩ := hload.spec hall hsmall
      obtain ⟨hstatus, hturned⟩ := next?_spec hnext
      rw [List.map_append, List.mem_append]
      rcases hload.shows hall hsmall hone' ha hfrom with hshown | hbehind
      · exact Or.inl (Or.inl hshown)
      · have hfrom' : v₂.offset ≤ position (·.2.2) (entries c₂.store.pg name) a := by
          rw [hturned, heq]
          exact hbehind.trans (hlater.position_le name a)
        rcases ih (hstatus.trans hall') hrows hone ((hstart.trans hlater).mem ha) hfrom'
          hoffset with hshown | hout
        · exact Or.inl (Or.inr hshown)
        · exact Or.inr hout

/-- **No job is missed.**  Whoever goes through the pages of a queue from the first to the
last sees every job that was there at the beginning, whatever is enqueued meanwhile, unless
its time of creation is that of another one, or more jobs are there in the end than the last
page says. -/
theorem misses_none (h : Browses env name {} c jobs v c')
    (hrows : c'.store.pg.rows.length ≤ maxRows) {r : JobRow} (hr : r ∈ c.store.pg.rows)
    (hname : r.queueName = name)
    (hone : ∀ r' ∈ c'.store.pg.rows, r'.queueName = name → r'.createdAt = r.createdAt →
      r'.id = r.id) :
    r.id ∈ jobs.map Job.id ∨ v.total < (selected c'.store.pg name none).length := by
  have hlength : (entries c'.store.pg name).length ≤ maxRows := by
    refine (List.length_filter_le _ _).trans ?_
    rwa [List.length_map]
  have hmem : fixed r ∈ entries c.store.pg name :=
    List.mem_filter.mpr ⟨List.mem_map_of_mem hr, decide_eq_true hname⟩
  have hsame : ∀ b ∈ entries c'.store.pg name, b.2.2 = (fixed r).2.2 → b = fixed r := by
    intro b hb heq
    obtain ⟨hb, hqueue⟩ := List.mem_filter.mp hb
    obtain ⟨r', hr', rfl⟩ := List.mem_map.mp hb
    have hqueue : r'.queueName = name := of_decide_eq_true hqueue
    have hid : r'.id = r.id := hone r' hr' hqueue heq
    have htime : r'.createdAt = r.createdAt := heq
    rw [fixed, fixed, hid, htime, hqueue, hname]
  have hshown := h.shows rfl hlength hsame hmem (Nat.zero_le _)
  rwa [← map_selected, List.length_map] at hshown

/-- A page of a queue whose jobs are in the table in the order of their creation. -/
theorem loads_of_ascending (hall : v.status = "all")
    (hoffset : Dlq.index (Dlq.offsetOf (some (toString v.offset))) = some (v.offset : ℤ))
    (hrows : (entries c.store.pg name).Pairwise fun a b => a.2.2 ≤ b.2.2) :
    ∃ v', Loads env name v c v' c ∧ v'.status = "all" ∧ v'.offset = v.offset ∧
      v'.total = (entries c.store.pg name).length ∧ v'.jobs.map Job.id =
        (((entries c.store.pg name).reverse.drop v.offset).take PAGE_SIZE).map Prod.fst := by
  have hlimit : Dlq.limitOf (some (toString PAGE_SIZE)) = .fin 20 :=
    Dlq.limitOf_toString (by decide) (by decide)
  let l := (selected c.store.pg name none).reverse
  have hl : Descending JobRow.createdAt (selected c.store.pg name none) l := by
    refine ⟨List.reverse_perm _, List.pairwise_reverse.mpr ?_⟩
    rw [← map_selected, List.pairwise_map] at hrows
    exact hrows
  have hrun : Runs (asks env) c
      (get name none (some (toString PAGE_SIZE)) (some (toString v.offset)))
      (.ok (.listed (((l.drop v.offset).take PAGE_SIZE).map describe)
        (selected c.store.pg name none).length)) c := by
    unfold get
    rw [if_neg (by rintro ⟨st, hst, -⟩; cases hst), hlimit]
    have hcount : asks env c (.count name (truthy none))
        (.ok (selected c.store.pg name none).length) c := ⟨.init rfl, rfl⟩
    have hpage : asks env c
        (.page name (truthy none) (.fin 20) (Dlq.offsetOf (some (toString v.offset))))
        (.ok ((l.drop v.offset).take PAGE_SIZE)) c :=
      ⟨.init rfl, PAGE_SIZE, v.offset, l, by decide, hoffset, hl, rfl⟩
    exact .call hcount (.call hpage .ret)
  have hloads : Loads env name v c { v with
      jobs := ((l.drop v.offset).take PAGE_SIZE).map describe
      total := (selected c.store.pg name none).length } c := by
    refine .loads ?_
    rw [if_pos hall]
    exact hrun
  refine ⟨_, hloads, hall, rfl, ?_, ?_⟩
  · rw [← map_selected, List.length_map]
  · rw [← map_selected, ← List.map_reverse, ← List.map_drop, ← List.map_take, List.map_map,
      List.map_map]
    rfl

/-- The `n`-th job of a queue. -/
def sampleRow (n : ℕ) : JobRow where
  id := Uuid.ofByte n
  queueName := "emails"
  jobName := "send"
  payload := .null
  status := .pending
  maxAttempts := 3
  createdAt := n

/-- A queue of twenty-one jobs. -/
def twoPages : State where
  store :=
    { pg :=
        { rows := (List.range 21).map sampleRow
          room := fun _ _ _ => true
          printed := by
            intro r hr
            obtain ⟨n, -, rfl⟩ := List.mem_map.mp hr
            exact Uuid.printed_text _
          primaryKey := by
            rw [List.map_map]
            have hids : ((List.range 21).map Uuid.ofByte).Nodup := by decide
            have htexts := hids.map Uuid.text_injective
            rwa [List.map_map] at htexts
          uniqueKeys := by decide }
      clock := 21 }
  pool := []

/-- One more job is enqueued. -/
theorem later_twoPages (queue : QueueName) (hqueue : queue = "emails" ∨ queue = "reports") :
    ∃ c', Later sample twoPages c' ∧ c'.store.pg.rows.map fixed =
      (List.range 21).map (fun n => ((Uuid.ofByte n).text, "emails", n)) ++
        [((Uuid.ofByte 21).text, queue, 21)] := by
  obtain ⟨c', hc, ht⟩ := Machine.exists_reach (machine sample) Anything (· = twoPages) rfl
    ([.start (.enqueue "send" (some .null) { queue := some queue }),
      .call 0 (.fresh (Uuid.ofByte 21))] ++ goes 0 5)
    (fun c' => decide (c'.store.pg.rows.map fixed =
      (List.range 21).map (fun n => ((Uuid.ofByte n).text, "emails", n)) ++
        [((Uuid.ofByte 21).text, queue, 21)]))
    (by rcases hqueue with rfl | rfl <;> decide +kernel)
  exact ⟨c', hc, of_decide_eq_true ht⟩

/-- Its two pages, the second of which is loaded after the run. -/
theorem browses_twoPages (hlater : Later sample twoPages c')
    (hrows : (entries c'.store.pg "emails").Pairwise fun a b => a.2.2 ≤ b.2.2)
    (hlength : (entries c'.store.pg "emails").length ≤ 2 * PAGE_SIZE) :
    ∃ jobs v, Browses sample "emails" {} twoPages jobs v c' ∧
      v.total = (entries c'.store.pg "emails").length ∧ jobs.map Job.id =
        (((List.range 21).reverse.take PAGE_SIZE).map fun n => (Uuid.ofByte n).text) ++
          ((entries c'.store.pg "emails").reverse.drop PAGE_SIZE).map Prod.fst := by
  have hoffset : ∀ k : ℕ, k = 0 ∨ k = PAGE_SIZE →
      Dlq.index (Dlq.offsetOf (some (toString k))) = some (k : ℤ) := by
    intro k hk
    rw [Dlq.offsetOf, Dlq.queryNumber, Dlq.number_toString, Dlq.ofRat_natCast]
    · rcases hk with rfl | rfl <;> decide
    · rcases hk with rfl | rfl <;> decide
  have hstart : entries twoPages.store.pg "emails" =
      (List.range 21).map fun n => ((Uuid.ofByte n).text, "emails", n) := by
    rw [entries, show twoPages.store.pg.rows = (List.range 21).map sampleRow from rfl,
      List.map_map, List.filter_eq_self.mpr]
    · rfl
    · intro a ha
      obtain ⟨n, -, rfl⟩ := List.mem_map.mp ha
      rfl
  have hascending : (entries twoPages.store.pg "emails").Pairwise fun a b => a.2.2 ≤ b.2.2 := by
    rw [hstart, List.pairwise_map]
    exact List.pairwise_le_range
  obtain ⟨v₁, hfirst, hall, hat, htotal, hjobs⟩ :=
    @loads_of_ascending sample _ _ {} rfl (hoffset 0 (Or.inl rfl)) hascending
  -- 21 jobs make two pages
  have hmore : v₁.next? = some { v₁ with offset := PAGE_SIZE } := by
    rw [hstart] at htotal
    have hlen : v₁.total = 21 := by simpa using htotal
    have hzero : v₁.offset = 0 := hat
    unfold View.next? View.totalPages View.currentPage
    rw [hlen, hzero]
    rfl
  obtain ⟨v₂, hsecond, -, hat', htotal', hjobs'⟩ :=
    @loads_of_ascending sample _ _ { v₁ with offset := PAGE_SIZE } hall
      (hoffset PAGE_SIZE (Or.inr rfl)) hrows
  -- and there is no third one
  have hlast : v₂.next? = none := by
    unfold View.next? View.totalPages View.currentPage
    unfold PAGE_SIZE at *
    rw [if_neg]
    rw [htotal', hat']
    dsimp only
    omega
  have hrest : ((entries c'.store.pg "emails").reverse.drop PAGE_SIZE).length ≤ PAGE_SIZE := by
    rw [List.length_drop, List.length_reverse]
    omega
  refine ⟨_, v₂, .next hfirst hmore hlater (.last hsecond hlast), htotal', ?_⟩
  rw [List.map_append, hjobs, hjobs', List.take_of_length_le hrest, hstart, ← List.map_reverse,
    ← List.map_drop, ← List.map_take, List.map_map]
  rfl

/-- The theorem at the oldest job, which is on the second page.  A job that is enqueued
before that page is loaded moves the last one of the first page there too. -/
theorem misses_none_two_pages : ∃ c' jobs v, Browses sample "emails" {} twoPages jobs v c' ∧
    jobs.map Job.id = (((List.range 21).reverse.take PAGE_SIZE ++ [1, 0]).map fun n =>
      (Uuid.ofByte n).text) ∧ v.total = 22 ∧
    ((Uuid.ofByte 0).text ∈ jobs.map Job.id ∨
      v.total < (selected c'.store.pg "emails" none).length) := by
  obtain ⟨c', hlater, hrows⟩ := later_twoPages "emails" (Or.inl rfl)
  have hentries : entries c'.store.pg "emails" =
      (List.range 22).map fun n => ((Uuid.ofByte n).text, "emails", n) := by
    rw [entries, hrows]
    decide +kernel
  have hlength : c'.store.pg.rows.length = 22 := by
    simpa using congrArg List.length hrows
  obtain ⟨jobs, v, h, htotal, hjobs⟩ := browses_twoPages hlater
    (by rw [hentries, List.pairwise_map]; exact List.pairwise_le_range)
    (by rw [hentries]; decide)
  rw [hentries] at htotal hjobs
  refine ⟨c', jobs, v, h, ?_, by simpa using htotal, misses_none (r := sampleRow 0) h ?_ ?_ rfl ?_⟩
  · rw [hjobs]
    rfl
  · rw [hlength]
    decide
  · exact List.mem_map_of_mem (List.mem_range.mpr (by decide))
  · intro r hr hname htime
    have hmem : fixed r ∈ entries c'.store.pg "emails" :=
      List.mem_filter.mpr ⟨List.mem_map_of_mem hr, decide_eq_true hname⟩
    rw [hentries] at hmem
    obtain ⟨n, -, hn⟩ := List.mem_map.mp hmem
    have hzero : n = r.createdAt := congrArg (·.2.2) hn
    have hid : (Uuid.ofByte n).text = r.id := congrArg Prod.fst hn
    rw [← hid, hzero, htime]
    rfl

/-! ## A queue to which nothing is added -/

/-- Rows with distinct values have one order. -/
theorem Descending.unique {α : Type} {f : α → ℕ} {rows l l' : List α}
    (h : Descending f rows l) (h' : Descending f rows l')
    (hone : ∀ a ∈ rows, ∀ b ∈ rows, f a = f b → a = b) : l = l' := by
  refine List.Perm.eq_of_pairwise ?_ h.ordered h'.ordered (h.perm.trans h'.perm.symm)
  intro a b ha hb hba hab
  exact hone a (h.perm.mem_iff.mp ha) b (h'.perm.mem_iff.mp hb) (le_antisymm hab hba)

/-- If nothing has been added in the end, nothing has been added in between. -/
theorem Later.still {c₁ : State} (h : Later env c c₁) (h' : Later env c₁ c')
    (hend : (entries c'.store.pg name).length = (entries c.store.pg name).length) :
    entries c₁.store.pg name = entries c.store.pg name := by
  obtain ⟨new, hnew⟩ := h.grows name
  have hle := h'.length_le name
  rw [hnew, List.length_append] at hle
  have hnone : new = [] := List.length_eq_zero_iff.mp (by omega)
  rw [hnew, hnone, List.append_nil]

/-- `Next` is enabled only if there is more. -/
theorem offset_of_next? (h : v.next? = some v') : v'.offset < v.total + 2 * PAGE_SIZE := by
  obtain ⟨⟨-, hmore⟩, h⟩ := Option.ite_none_right_eq_some.mp h
  cases h
  unfold View.totalPages View.currentPage PAGE_SIZE at hmore
  show v.offset + PAGE_SIZE < _
  unfold PAGE_SIZE
  omega

/-- The pages from an offset on are what is behind that offset. -/
theorem Browses.exact (h : Browses env name v c jobs v' c') (hall : v.status = "all")
    (hoffset : v.offset < 2 ^ 51) {es l : List (JobId × QueueName × ℕ)}
    (hrows : es.length ≤ maxRows) (hstart : entries c.store.pg name = es)
    (hend : (entries c'.store.pg name).length = es.length)
    (hone : ∀ a ∈ es, ∀ b ∈ es, a.2.2 = b.2.2 → a = b) (hl : Descending (·.2.2) es l) :
    jobs.map Job.id = (l.drop v.offset).map Prod.fst := by
  induction h with
  | @last v c v' c' hload hnext =>
      obtain ⟨c₁, l', hbefore, hafter, -, heq, htotal, hl', hjobs⟩ := hload.spec hall hoffset
      have h₁ := hbefore.still hafter (hend.trans (congrArg _ hstart.symm))
      have h₂ := (hbefore.trans hafter).still (.init rfl) (hend.trans (congrArg _ hstart.symm))
      rw [h₁, hstart] at htotal
      rw [h₂, hstart] at hl'
      rw [hjobs, hl'.unique hl hone]
      have hlast := total_le_of_next? hnext
      have hlength := hl.perm.length_eq
      rw [List.take_of_length_le]
      rw [List.length_drop]
      omega
  | @next v c v₁ c₁ v₂ c₂ jobs v' c' hload hnext hlater hrest ih =>
      obtain ⟨c₀, l', hbefore, hafter, hall', heq, htotal, hl', hjobs⟩ := hload.spec hall hoffset
      have hrestlater : Later env c₁ c' := hlater.trans hrest.later
      have hend' := hend.trans (congrArg _ hstart.symm)
      have h₀ := hbefore.still (hafter.trans hrestlater) hend'
      have h₁ := (hbefore.trans hafter).still hrestlater hend'
      have h₂ := ((hbefore.trans hafter).trans hlater).still hrest.later hend'
      rw [h₀, hstart] at htotal
      rw [h₁, hstart] at hl'
      obtain ⟨hstatus, hturned⟩ := next?_spec hnext
      have hsmall := offset_of_next? hnext
      have hoffset' : v₂.offset < 2 ^ 51 := by
        unfold maxRows at hrows
        unfold PAGE_SIZE at hsmall
        omega
      rw [List.map_append, hjobs, hl'.unique hl hone,
        ih (hstatus.trans hall') hoffset' (h₂.trans hstart) hend, hturned, heq, ← List.map_append,
        ← List.drop_drop, List.take_append_drop]

/-- **Every job is shown once.**  While nothing is added to a queue whose jobs have distinct
times of creation, its pages show exactly its jobs, newest first. -/
theorem shows_each_once (h : Browses env name {} c jobs v c')
    (hrows : c.store.pg.rows.length ≤ maxRows)
    (hstill : (selected c'.store.pg name none).length = (selected c.store.pg name none).length)
    (hone : ∀ r ∈ selected c.store.pg name none, ∀ r' ∈ selected c.store.pg name none,
      r.createdAt = r'.createdAt → r.id = r'.id)
    {l : List JobRow} (hl : Descending JobRow.createdAt (selected c.store.pg name none) l) :
    jobs.map Job.id = l.map JobRow.id := by
  have hlength : (entries c.store.pg name).length ≤ maxRows := by
    refine (List.length_filter_le _ _).trans ?_
    rwa [List.length_map]
  have hend : (entries c'.store.pg name).length = (entries c.store.pg name).length := by
    rw [← map_selected, ← map_selected, List.length_map, List.length_map, hstill]
  have hkeys : ∀ a ∈ entries c.store.pg name, ∀ b ∈ entries c.store.pg name,
      a.2.2 = b.2.2 → a = b := by
    rw [← map_selected]
    intro a ha b hb heq
    obtain ⟨r, hr, rfl⟩ := List.mem_map.mp ha
    obtain ⟨r', hr', rfl⟩ := List.mem_map.mp hb
    have hname : r.queueName = r'.queueName := by
      obtain ⟨hqueue, -⟩ := of_decide_eq_true (List.mem_filter.mp hr).2
      obtain ⟨hqueue', -⟩ := of_decide_eq_true (List.mem_filter.mp hr').2
      rw [hqueue, hqueue']
    have htime : r.createdAt = r'.createdAt := heq
    rw [fixed, fixed, hone r hr r' hr' heq, hname, htime]
  have hl' : Descending (·.2.2) (entries c.store.pg name) (l.map fixed) := by
    rw [← map_selected]
    exact ⟨hl.perm.map fixed, List.pairwise_map.mpr hl.ordered⟩
  have hshown := h.exact rfl (by decide) hlength rfl hend hkeys hl'
  rw [hshown]
  show ((l.map fixed).drop 0).map Prod.fst = _
  rw [List.drop_zero, List.map_map]
  rfl

/-- The theorem while a job is enqueued to another queue. -/
theorem shows_each_once_two_pages : ∃ c' jobs v, Later sample twoPages c' ∧
    c'.store.pg.rows.length = 22 ∧ Browses sample "emails" {} twoPages jobs v c' ∧
    jobs.map Job.id = ((List.range 21).map sampleRow).reverse.map JobRow.id := by
  obtain ⟨c', hlater, hrows⟩ := later_twoPages "reports" (Or.inr rfl)
  have hentries : entries c'.store.pg "emails" =
      (List.range 21).map fun n => ((Uuid.ofByte n).text, "emails", n) := by
    rw [entries, hrows]
    decide +kernel
  obtain ⟨jobs, v, h, -, -⟩ := browses_twoPages hlater
    (by rw [hentries, List.pairwise_map]; exact List.pairwise_le_range)
    (by rw [hentries]; decide)
  have hselected : selected twoPages.store.pg "emails" none = (List.range 21).map sampleRow := by
    refine List.filter_eq_self.mpr fun r hr => ?_
    obtain ⟨n, -, rfl⟩ := List.mem_map.mp hr
    rfl
  refine ⟨c', jobs, v, hlater, ?_, h, shows_each_once h ?_ ?_ ?_ ⟨?_, ?_⟩⟩
  · simpa using congrArg List.length hrows
  · show ((List.range 21).map sampleRow).length ≤ maxRows
    simp [maxRows]
  · have hstill := congrArg List.length hentries
    rw [← map_selected, List.length_map] at hstill
    rw [hstill, hselected, List.length_map, List.length_map]
  · rw [hselected]
    intro r hr r' hr' htime
    obtain ⟨n, -, rfl⟩ := List.mem_map.mp hr
    obtain ⟨n', -, rfl⟩ := List.mem_map.mp hr'
    have hn : n = n' := htime
    rw [hn]
  · rw [hselected]
    exact List.reverse_perm _
  · rw [List.pairwise_reverse, List.pairwise_map]
    exact List.pairwise_le_range

end Browse

end QueueDetail

end NexusQueue
