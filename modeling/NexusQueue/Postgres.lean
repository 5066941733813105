/-
# The `jobs` table (`infra/postgres`, `shared/src/db.ts`)

The rows of the table with its primary key and the partial unique index on
`idempotency_key` as fields of the structure: a table that violates one of them
cannot be built.  `insert` refuses a row that a constraint or a column type
rejects; an update changes the columns a `RowPatch` names and no others.

The ids of the rows are uuids.  They are given out as the texts that the server
prints, and `row?` finds a row by that text.  The statements find it by any
spelling of its id (`select`, `update`), and reject a text that spells no uuid.
-/
import NexusQueue.Types
import NexusQueue.Uuid

namespace NexusQueue

/-- A row of the table `jobs`. -/
structure JobRow where
  id : JobId
  queueName : QueueName
  jobName : String
  payload : Json
  status : JobStatus
  attempts : ℤ := 0
  maxAttempts : ℤ
  errorMessage : Option String := none
  createdAt : ℕ
  startedAt : Option ℕ := none
  completedAt : Option ℕ := none
  idempotencyKey : Option String := none
  priority : Option String := some "normal"
  delayedUntil : Option ℚ := none

/-- The values of an `INSERT`.  Columns that a statement does not mention have
their defaults; `none` for the payload or the number of attempts is what `pg`
sends for `undefined` or `NaN`. -/
structure NewRow where
  id : Uuid
  queueName : QueueName
  jobName : String
  payload : Option Json
  status : JobStatus
  maxAttempts : Option ℚ
  idempotencyKey : Option String := none
  priority : String := "normal"
  delayedUntil : Option ℚ := none

/-- The row an accepted `INSERT` adds. -/
def NewRow.toRow (n : NewRow) (payload : Json) (maxAttempts : ℤ) (now : ℕ) : JobRow where
  id := n.id
  queueName := n.queueName
  jobName := n.jobName
  payload := payload
  status := n.status
  maxAttempts := maxAttempts
  createdAt := now
  idempotencyKey := n.idempotencyKey
  priority := some n.priority
  delayedUntil := n.delayedUntil

/-- The new value of a time column. -/
inductive StampSet where
  | keep | null | now
  deriving DecidableEq

def StampSet.apply (now : ℕ) (old : Option ℕ) : StampSet → Option ℕ
  | .keep => old
  | .null => none
  | .now => some now

/-- The `SET` clause of an `UPDATE`. -/
structure RowPatch where
  status : JobStatus
  startedAt : StampSet := .keep
  completedAt : StampSet := .keep
  errorMessage : Option (Option String) := none
  countAttempt : Bool := false

/-- The row after an update at time `now`. -/
def JobRow.patch (now : ℕ) (p : RowPatch) (r : JobRow) : JobRow :=
  { r with
    status := p.status
    startedAt := p.startedAt.apply now r.startedAt
    completedAt := p.completedAt.apply now r.completedAt
    errorMessage := p.errorMessage.getD r.errorMessage
    attempts := if p.countAttempt then r.attempts + 1 else r.attempts }

@[simp] theorem JobRow.patch_id (now : ℕ) (p : RowPatch) (r : JobRow) :
    (r.patch now p).id = r.id := rfl

@[simp] theorem JobRow.patch_idempotencyKey (now : ℕ) (p : RowPatch) (r : JobRow) :
    (r.patch now p).idempotencyKey = r.idempotencyKey := rfl

@[simp] theorem JobRow.patch_status (now : ℕ) (p : RowPatch) (r : JobRow) :
    (r.patch now p).status = p.status := rfl

/-- The table.  What else the server has room for depends on the queue name and the
idempotency key, which are indexed and must fit on a page when compressed, and on how
deep the payload is nested. -/
structure Postgres where
  rows : List JobRow := []
  room : QueueName → Json → Option String → Bool
  printed : ∀ r ∈ rows, Uuid.Printed r.id := by simp
  primaryKey : (rows.map JobRow.id).Nodup := by simp
  uniqueKeys : (rows.filterMap JobRow.idempotencyKey).Nodup := by simp

/-- The table of a server before any row is inserted. -/
def Postgres.emptyWith (room : QueueName → Json → Option String → Bool) : Postgres := { room }

/-- The table of a server that has room for everything. -/
def Postgres.empty : Postgres := .emptyWith fun _ _ _ => true

@[simp] theorem Postgres.emptyWith_rows (room : QueueName → Json → Option String → Bool) :
    (Postgres.emptyWith room).rows = [] := rfl

@[simp] theorem Postgres.empty_rows : Postgres.empty.rows = [] := rfl

/-- `INTEGER` accepts whole numbers of 32 bits. -/
def int4? (q : Option ℚ) : Option ℤ :=
  q.bind fun x =>
    if x.den = 1 ∧ -2 ^ 31 ≤ x.num ∧ x.num < 2 ^ 31 then some x.num else none

/-- A JavaScript `Date` is valid up to 8.64e15 ms on either side of the epoch. -/
def validDate (q : Option ℚ) : Bool :=
  q.elim true fun x => -8640000000000000 ≤ x ∧ x ≤ 8640000000000000

/-- The first column whose value is refused.  The values arrive in the order of the statement;
that a payload is there is checked when the row is complete. -/
def NewRow.misfit (n : NewRow) : Option String :=
  if plain n.queueName = false then some "queue_name"
  else if plain n.jobName = false then some "job_name"
  else if n.payload.all Json.plain = false then some "payload"
  else if (int4? n.maxAttempts).isNone then some "max_attempts"
  else if n.idempotencyKey.all plain = false then some "idempotency_key"
  else if validDate n.delayedUntil = false then some "delayed_until"
  else if plain n.priority = false then some "priority"
  else if n.payload.isNone then some "payload"
  else none

/-- The texts of the row, those in its payload included, can be stored. -/
def NewRow.Plain (n : NewRow) : Prop :=
  plain n.queueName = true ∧ plain n.jobName = true ∧ n.payload.all Json.plain = true ∧
    n.idempotencyKey.all plain = true ∧ plain n.priority = true

instance (n : NewRow) : Decidable n.Plain := inferInstanceAs (Decidable (_ ∧ _ ∧ _ ∧ _ ∧ _))

/-- The values of the row fit the columns of the table. -/
def NewRow.WellTyped (n : NewRow) : Prop :=
  n.payload.isSome ∧ (int4? n.maxAttempts).isSome ∧ validDate n.delayedUntil = true ∧ n.Plain

instance (n : NewRow) : Decidable n.WellTyped :=
  inferInstanceAs (Decidable (_ ∧ _ ∧ _ ∧ _))

/-- No value is refused. -/
theorem NewRow.misfit_eq_none (n : NewRow) : n.misfit = none ↔ n.WellTyped := by
  unfold misfit WellTyped Plain
  constructor
  · intro h
    repeat' split at h
    all_goals cases h
    simp_all [Option.isSome_iff_ne_none]
  · rintro ⟨hpayload, hmax, hdate, hqueue, hname, htexts, hkey, hpriority⟩
    simp [hqueue, hname, htexts, hkey, hpriority, hdate, Option.isNone_iff_eq_none,
      Option.isSome_iff_ne_none.mp hpayload, Option.isSome_iff_ne_none.mp hmax]

namespace Postgres

/-- The row whose id is printed so. -/
def row? (db : Postgres) (id : JobId) : Option JobRow := db.rows.find? (·.id = id)

/-- `SELECT … FROM jobs WHERE id = $1`. -/
def select (db : Postgres) (id : String) : Option JobRow := (Uuid.normal id).bind db.row?

/-- Some row carries the idempotency key. -/
def hasKey (db : Postgres) (key : String) : Prop :=
  key ∈ db.rows.filterMap JobRow.idempotencyKey

instance (db : Postgres) (key : String) : Decidable (db.hasKey key) :=
  inferInstanceAs (Decidable (_ ∈ _))

/-- Add a row that violates no constraint. -/
def append (db : Postgres) (r : JobRow) (hprinted : Uuid.Printed r.id)
    (hid : r.id ∉ db.rows.map JobRow.id)
    (hkey : ∀ k, r.idempotencyKey = some k → ¬ db.hasKey k) : Postgres where
  rows := db.rows ++ [r]
  room := db.room
  printed := by
    intro r' hr'
    rcases List.mem_append.mp hr' with hr' | hr'
    · exact db.printed r' hr'
    · rwa [List.mem_singleton.mp hr']
  primaryKey := by
    rw [List.map_append, List.nodup_append]
    refine ⟨db.primaryKey, by simp, ?_⟩
    rintro a ha b hb rfl
    rw [List.map_singleton, List.mem_singleton] at hb
    exact hid (hb ▸ ha)
  uniqueKeys := by
    rw [List.filterMap_append, List.nodup_append]
    refine ⟨db.uniqueKeys, ?_, ?_⟩
    · cases h : r.idempotencyKey <;> simp [h]
    · intro a ha b hb hab
      subst hab
      cases h : r.idempotencyKey with
      | none => simp [h] at hb
      | some k =>
          simp only [List.filterMap_cons, h, List.filterMap_nil, List.mem_singleton] at hb
          subst hb
          exact hkey _ h ha

/-- There is room for the row. -/
def hasRoom (db : Postgres) (n : NewRow) : Prop :=
  ∀ payload ∈ n.payload, db.room n.queueName payload n.idempotencyKey = true

instance (db : Postgres) (n : NewRow) : Decidable (db.hasRoom n) :=
  inferInstanceAs (Decidable (∀ _ ∈ _, _ = _))

/-- An index entry that does not fit on a page, or a value that is nested too deep. -/
def noRoom : Err := .error "program limit exceeded"

/-- `INSERT INTO jobs`. -/
def insert (now : ℕ) (db : Postgres) (n : NewRow) : Except Err Postgres :=
  match n.misfit, n.payload, int4? n.maxAttempts with
  | none, some payload, some maxAttempts =>
      if hid : n.id.text ∈ db.rows.map JobRow.id then
        .error (.uniqueViolation "jobs_pkey")
      else if ¬ db.hasRoom n then .error noRoom
      else if hkey : ∃ k ∈ n.idempotencyKey, db.hasKey k then
        .error (.uniqueViolation "idx_jobs_idempotency_key")
      else .ok (db.append (n.toRow payload maxAttempts now) (Uuid.printed_text n.id) hid
        fun k hk hh => hkey ⟨k, hk, hh⟩)
  | column, _, _ => .error (.invalidValue (column.getD "payload"))

/-- `UPDATE jobs SET … WHERE id = $1`. -/
def update (now : ℕ) (db : Postgres) (id : String) (p : RowPatch) : Postgres where
  rows := db.rows.map fun r => if Uuid.normal id = some r.id then r.patch now p else r
  room := db.room
  printed := by
    intro r hr
    obtain ⟨r', hr', rfl⟩ := List.mem_map.mp hr
    by_cases h : Uuid.normal id = some r'.id
    · rw [if_pos h]
      exact db.printed r' hr'
    · rw [if_neg h]
      exact db.printed r' hr'
  primaryKey := by
    rw [List.map_map]
    convert db.primaryKey using 1
    apply List.map_congr_left
    intro r _
    by_cases h : Uuid.normal id = some r.id <;> simp [h]
  uniqueKeys := by
    rw [List.filterMap_map]
    convert db.uniqueKeys using 1
    apply List.filterMap_congr
    intro r _
    by_cases h : Uuid.normal id = some r.id <;> simp [h]

/-! ## What the statements do to the rows -/

/-- A row that is found has the id it was looked up by. -/
theorem id_of_row? {db : Postgres} {j : JobId} {r : JobRow} (h : db.row? j = some r) :
    r.id = j := by
  simpa using List.find?_some h

theorem row?_eq_none_iff (db : Postgres) (j : JobId) :
    db.row? j = none ↔ j ∉ db.rows.map JobRow.id := by
  simp [row?]

/-- The ids of the rows are printed. -/
theorem printed_of_row? {db : Postgres} {j : JobId} (h : (db.row? j).isSome) :
    Uuid.Printed j := by
  obtain ⟨r, hr⟩ := Option.isSome_iff_exists.mp h
  rw [← id_of_row? hr]
  exact db.printed r (List.mem_of_find?_eq_some hr)

/-- A printed id is found by a statement as it is. -/
theorem select_of_printed {db : Postgres} {j : JobId} (h : Uuid.Printed j) :
    db.select j = db.row? j := by
  rw [select, h, Option.bind_some]

/-- What becomes of the table by an accepted `INSERT`. -/
theorem insert_eq {now : ℕ} {db db' : Postgres} {n : NewRow} (h : db.insert now n = .ok db') :
    ∃ payload maxAttempts, n.payload = some payload ∧ int4? n.maxAttempts = some maxAttempts ∧
      ∃ (hid : n.id.text ∉ db.rows.map JobRow.id)
        (hkey : ∀ k, n.idempotencyKey = some k → ¬ db.hasKey k),
        db' = db.append (n.toRow payload maxAttempts now) (Uuid.printed_text n.id) hid hkey := by
  unfold insert at h
  split at h
  · rename_i payload maxAttempts _ hpayload hmax
    split at h
    · cases h
    · rename_i hid
      split at h
      · cases h
      · split at h
        · cases h
        · rename_i hkey
          cases h
          exact ⟨payload, maxAttempts, hpayload, hmax, hid, fun k hk hh => hkey ⟨k, hk, hh⟩, rfl⟩
  · cases h

/-- Values that fit the columns, and for which there is room, are accepted. -/
theorem accepted_of_insert {now : ℕ} {db db' : Postgres} {n : NewRow}
    (h : db.insert now n = .ok db') : n.WellTyped ∧ db.hasRoom n := by
  unfold insert at h
  split at h
  · rename_i _ _ hnone _ _
    split at h
    · cases h
    · split at h
      · cases h
      · rename_i hroom
        exact ⟨(NewRow.misfit_eq_none n).mp hnone, not_not.mp hroom⟩
  · cases h

/-- An accepted `INSERT` adds one row with a new id and, if it carries one, a new
idempotency key. -/
theorem insert_ok {now : ℕ} {db db' : Postgres} {n : NewRow} (h : db.insert now n = .ok db') :
    ∃ payload maxAttempts, db.row? n.id = none ∧
      (∀ k, n.idempotencyKey = some k → ¬ db.hasKey k) ∧
      db'.rows = db.rows ++ [n.toRow payload maxAttempts now] ∧ db'.room = db.room := by
  obtain ⟨payload, maxAttempts, -, -, hid, hkey, rfl⟩ := insert_eq h
  exact ⟨payload, maxAttempts, (row?_eq_none_iff db _).mpr hid, hkey, rfl, rfl⟩

/-- A row whose values fit the columns, and for which there is room, under a new id and
with a key that is not taken, is accepted. -/
theorem insert_accepts {db : Postgres} {n : NewRow} (hw : n.WellTyped) (hroom : db.hasRoom n)
    (hid : db.row? n.id = none) (hkey : ∀ k ∈ n.idempotencyKey, ¬ db.hasKey k) (now : ℕ) :
    ∃ db', db.insert now n = .ok db' := by
  obtain ⟨payload, hp⟩ := Option.isSome_iff_exists.mp hw.1
  obtain ⟨maxAttempts, hm⟩ := Option.isSome_iff_exists.mp hw.2.1
  unfold insert
  rw [(NewRow.misfit_eq_none n).mpr hw, hp, hm]
  dsimp only
  rw [dif_neg ((row?_eq_none_iff db n.id).mp hid), if_neg (not_not.mpr hroom),
    dif_neg (fun ⟨k, hk, hh⟩ => hkey k hk hh)]
  exact ⟨_, rfl⟩

/-- A value that is refused. -/
theorem insert_misfit {db : Postgres} {n : NewRow} {column : String}
    (h : n.misfit = some column) (now : ℕ) :
    db.insert now n = .error (.invalidValue column) := by
  unfold insert
  rw [h]
  split
  · cases ‹some column = none›
  · rfl

/-- A row for which there is no room. -/
theorem insert_noRoom {db : Postgres} {n : NewRow} (hw : n.WellTyped) (hroom : ¬ db.hasRoom n)
    (hid : db.row? n.id = none) (now : ℕ) : db.insert now n = .error noRoom := by
  obtain ⟨payload, hp⟩ := Option.isSome_iff_exists.mp hw.1
  obtain ⟨maxAttempts, hm⟩ := Option.isSome_iff_exists.mp hw.2.1
  unfold insert
  rw [(NewRow.misfit_eq_none n).mpr hw, hp, hm]
  dsimp only
  rw [dif_neg ((row?_eq_none_iff db n.id).mp hid), if_pos hroom]

/-- After an accepted `INSERT` the new row is there and all others are as
before. -/
theorem row?_insert {now : ℕ} {db db' : Postgres} {n : NewRow} (h : db.insert now n = .ok db') :
    ∃ r : JobRow, r.id = n.id ∧ r.status = n.status ∧ r.idempotencyKey = n.idempotencyKey ∧
      ∀ j, db'.row? j = if j = n.id then some r else db.row? j := by
  obtain ⟨payload, maxAttempts, hnone, -, hrows, -⟩ := insert_ok h
  refine ⟨n.toRow payload maxAttempts now, rfl, rfl, rfl, fun j => ?_⟩
  rw [row?, hrows, List.find?_append]
  by_cases hj : j = n.id
  · subst hj
    change (db.row? n.id).or _ = _
    simp [hnone, NewRow.toRow]
  · have hne : ¬ n.id.text = j := fun h => hj h.symm
    change (db.row? j).or _ = _
    simp [hj, hne, NewRow.toRow]

/-- What `INTEGER` accepts is the number that is stored. -/
theorem eq_of_int4? {q : Option ℚ} {i : ℤ} (h : int4? q = some i) : q = some (i : ℚ) := by
  obtain ⟨x, rfl, hx⟩ := Option.bind_eq_some_iff.mp h
  split at hx
  · rename_i hint
    cases hx
    rw [(Rat.den_eq_one_iff x).mp hint.1]
  · cases hx

/-- The row of an accepted `INSERT`. -/
theorem row_of_insert {now : ℕ} {db db' : Postgres} {n : NewRow} (h : db.insert now n = .ok db') :
    ∃ payload maxAttempts, n.payload = some payload ∧
      n.maxAttempts = some ((maxAttempts : ℤ) : ℚ) ∧
      db'.row? n.id = some (n.toRow payload maxAttempts now) := by
  obtain ⟨payload, maxAttempts, hpayload, hmax, hid, -, rfl⟩ := insert_eq h
  refine ⟨payload, maxAttempts, hpayload, eq_of_int4? hmax, ?_⟩
  have hnone : db.row? n.id = none := (row?_eq_none_iff db _).mpr hid
  change (db.rows ++ [n.toRow payload maxAttempts now]).find? _ = _
  rw [List.find?_append]
  change (db.row? n.id).or _ = _
  simp [hnone, NewRow.toRow]

/-- The row of an accepted `INSERT` has the values of the statement. -/
theorem inserted {now : ℕ} {db db' : Postgres} {n : NewRow} (h : db.insert now n = .ok db') :
    ∃ r, db'.row? n.id = some r ∧ r.queueName = n.queueName ∧ r.jobName = n.jobName ∧
      n.payload = some r.payload ∧ n.maxAttempts = some (r.maxAttempts : ℚ) := by
  obtain ⟨payload, maxAttempts, hpayload, hmax, hrow⟩ := row_of_insert h
  exact ⟨n.toRow payload maxAttempts now, hrow, rfl, rfl, hpayload, hmax⟩

/-- An accepted `INSERT` leaves all rows as they are. -/
theorem row?_of_insert {now : ℕ} {db db' : Postgres} {row : NewRow} {i : JobId} {r : JobRow}
    (h : db.insert now row = .ok db') (hr : db.row? i = some r) : db'.row? i = some r := by
  obtain ⟨-, -, hnone, -, -, -⟩ := insert_ok h
  obtain ⟨r', -, -, -, hrows⟩ := row?_insert h
  rw [hrows, if_neg, hr]
  rintro rfl
  rw [hnone] at hr
  cases hr

/-- An accepted `INSERT` adds the key of its row. -/
theorem hasKey_insert {now : ℕ} {db db' : Postgres} {n : NewRow} (h : db.insert now n = .ok db')
    (key : String) : db'.hasKey key ↔ db.hasKey key ∨ n.idempotencyKey = some key := by
  obtain ⟨payload, maxAttempts, -, -, hrows, -⟩ := insert_ok h
  rw [hasKey, hasKey, hrows, List.filterMap_append, List.mem_append]
  cases hk : n.idempotencyKey <;> simp [NewRow.toRow, hk, eq_comm]

/-- An `UPDATE` leaves the keys alone. -/
theorem hasKey_update (now : ℕ) (db : Postgres) (id : String) (p : RowPatch) (key : String) :
    (db.update now id p).hasKey key ↔ db.hasKey key := by
  rw [hasKey, hasKey, update, List.filterMap_map]
  have hkeys : (JobRow.idempotencyKey ∘ fun r : JobRow =>
      if Uuid.normal id = some r.id then r.patch now p else r) = JobRow.idempotencyKey := by
    funext r
    by_cases hr : Uuid.normal id = some r.id <;> simp [hr]
  rw [hkeys]

/-- An `UPDATE` patches the row whose id is spelled. -/
theorem row?_update (now : ℕ) (db : Postgres) (id : String) (p : RowPatch) (j : JobId) :
    (db.update now id p).row? j =
      if Uuid.normal id = some j then (db.row? j).map (JobRow.patch now p) else db.row? j := by
  simp only [row?, update, List.find?_map]
  have hid : ((fun r : JobRow => decide (r.id = j)) ∘
      fun r => if Uuid.normal id = some r.id then r.patch now p else r) =
        fun r => decide (r.id = j) := by
    funext r
    by_cases h : Uuid.normal id = some r.id <;> simp [h]
  rw [hid]
  cases h : db.rows.find? fun r => decide (r.id = j) with
  | none => simp
  | some r =>
      have hr : r.id = j := by simpa using List.find?_some h
      by_cases hj : Uuid.normal id = some j <;> simp [hr, hj]

/-- An `UPDATE` with a printed id patches its row. -/
theorem row?_update_printed {id : JobId} (h : Uuid.Printed id) (now : ℕ) (db : Postgres)
    (p : RowPatch) (j : JobId) :
    (db.update now id p).row? j =
      if j = id then (db.row? j).map (JobRow.patch now p) else db.row? j := by
  have hiff : Uuid.normal id = some j ↔ j = id := by
    rw [show Uuid.normal id = some id from h, Option.some_inj, eq_comm]
  rw [row?_update]
  simp only [hiff]

/-- Updates of many rows, by a patch that changes nothing the second time. -/
theorem row?_foldl_update {now : ℕ} {p : RowPatch}
    (hp : ∀ r : JobRow, (r.patch now p).patch now p = r.patch now p) (ids : List String)
    (db : Postgres) (j : JobId) :
    (ids.foldl (fun db id => db.update now id p) db).row? j =
      if ∃ id ∈ ids, Uuid.normal id = some j then (db.row? j).map (JobRow.patch now p)
      else db.row? j := by
  induction ids generalizing db with
  | nil =>
      rw [if_neg (by simp)]
      rfl
  | cons id ids ih =>
      rw [List.foldl_cons, ih, row?_update]
      by_cases hid : Uuid.normal id = some j
      · rw [if_pos hid, if_pos (show ∃ i ∈ id :: ids, Uuid.normal i = some j from
          ⟨id, List.mem_cons_self, hid⟩)]
        split
        · cases db.row? j with
          | none => rfl
          | some r => exact congrArg some (hp r)
        · rfl
      · rw [if_neg hid]
        simp only [List.exists_mem_cons_iff, hid, false_or]

/-- An `UPDATE` neither adds a row nor takes one away. -/
theorem isSome_row?_update (now : ℕ) (db : Postgres) (id : String) (p : RowPatch) (j : JobId) :
    ((db.update now id p).row? j).isSome = (db.row? j).isSome := by
  rw [row?_update]
  split
  · rw [Option.isSome_map]
  · rfl

end Postgres

end NexusQueue
