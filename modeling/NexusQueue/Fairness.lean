/-
# Weighted fairness of the pull loop

A pull tries the three ready lists of the worker's queue in an order that depends on the
pull index modulo ten: six times the `high` list first, three times the `normal` list, once
the `low` list.  A list that is tried first gives a job if it has one, so in ten pulls in a
row, wherever they start and whatever happens to the lists in between, every list that
always has a job gets its share (`fair_share`).
-/
import NexusQueue.Sequential

namespace NexusQueue

open Prog (Runs Ends Completes ends_pure)

namespace Fairness

variable {env : Env} {w : WorkerId} {s s' : World}

/-- The ready list of the worker's queue and a priority. -/
def listOf (env : Env) (w : WorkerId) (s : World) (p : Priority) : List JobId :=
  s.redis.lists (targetList (env.queue w) p.name)

/-- The tail of a ready list has been moved to the processing list. -/
def moved (env : Env) (w : WorkerId) (s : World) (p : Priority) : World :=
  { s with redis :=
      (s.redis.rpoplpush (targetList (env.queue w) p.name) (redisKeys.processing w)).2 }

/-- The first list that has a job. -/
def firstReady (env : Env) (w : WorkerId) (s : World) (order : List Priority) : Option Priority :=
  order.find? fun p => decide (listOf env w s p ≠ [])

/-- How a search through the lists ends. -/
def Found (env : Env) (w : WorkerId) (s : World) (x : Except Err (Option JobId)) (s' : World) :
    Option Priority → Prop
  | none => x = .ok none ∧ s' = s
  | some p => (∃ j, (listOf env w s p).getLast? = some j ∧ x = .ok (some j)) ∧ s' = moved env w s p

/-- An empty list gives nothing. -/
theorem rpoplpush_of_empty {p : Priority} (hempty : listOf env w s p = []) :
    s.redis.rpoplpush (targetList (env.queue w) p.name) (redisKeys.processing w) =
      (none, s.redis) := by
  simp only [Redis.rpoplpush]
  rw [show s.redis.lists (targetList (env.queue w) p.name) = [] from hempty]
  rfl

/-- The tail of a list is moved. -/
theorem rpoplpush_of_last {p : Priority} {j : JobId}
    (hlast : (listOf env w s p).getLast? = some j) :
    s.redis.rpoplpush (targetList (env.queue w) p.name) (redisKeys.processing w) =
      (some j, (moved env w s p).redis) := by
  refine Prod.ext ?_ rfl
  simp only [Redis.rpoplpush]
  rw [show (s.redis.lists (targetList (env.queue w) p.name)).getLast? = some j from hlast]

/-- A search takes a job from the first list that has one. -/
theorem pullFrom_ends (hids : ∀ p, "" ∉ listOf env w s p) (order : List Priority) :
    Ends (alone env (.loop w)) s
      (Worker.pullFrom (env.queue w) (redisKeys.processing w) order)
      fun x s' => Found env w s x s' (firstReady env w s order) := by
  induction order with
  | nil => exact ends_pure ⟨rfl, rfl⟩
  | cons p order ih =>
      refine ends_answered rfl (fun _ => rfl) ?_
      cases hlast : (listOf env w s p).getLast? with
      | none =>
          have hempty : listOf env w s p = [] := List.getLast?_eq_none_iff.mp hlast
          have hfind : firstReady env w s (p :: order) = firstReady env w s order := by
            simp [firstReady, hempty]
          rw [rpoplpush_of_empty hempty, hfind]
          exact ih
      | some j =>
          have hj : j ≠ "" := by
            rintro rfl
            exact hids p (List.mem_of_getLast? hlast)
          have hnonempty : listOf env w s p ≠ [] := by
            intro hempty
            rw [hempty] at hlast
            cases hlast
          have hfind : firstReady env w s (p :: order) = some p := by
            simp [firstReady, hnonempty]
          rw [rpoplpush_of_last hlast, hfind]
          rw [truthy_some hj]
          exact ends_pure ⟨⟨j, hlast, rfl⟩, rfl⟩

/-! ## One pull -/

/-- A pull: the world before, the job, the world after. -/
structure Round where
  before : World
  result : Option JobId
  after : World

/-- The pull index of the worker. -/
def indexOf (w : WorkerId) (s : World) : ℕ := (s.workers w).pullIndex

/-- The round is a pull, of either kind, that runs alone. -/
def Pulls (env : Env) (w : WorkerId) (x : Round) : Prop :=
  Runs (alone env (.loop w)) x.before (Worker.pullJobNonBlocking env w) (.ok x.result) x.after ∨
    Runs (alone env (.loop w)) x.before (Worker.pullJob env w) (.ok x.result) x.after

/-- Every entry of the ready lists is a job id. -/
def Proper (env : Env) (w : WorkerId) (s : World) : Prop := ∀ p, "" ∉ listOf env w s p

/-- The job is from the list of this priority: it was its tail, and the list has lost it. -/
def From (env : Env) (w : WorkerId) (x : Round) (p : Priority) : Prop :=
  ∃ j ∈ x.result, listOf env w x.before p = listOf env w x.after p ++ [j]

instance (env : Env) (w : WorkerId) (x : Round) (p : Priority) : Decidable (From env w x p) :=
  inferInstanceAs (Decidable (∃ j ∈ x.result, _))

/-- The index moves on. -/
def advanced (w : WorkerId) (s : World) : World :=
  s.setWorker w { s.workers w with pullIndex := (s.workers w).pullIndex + 1 }

/-- The lists of a queue are different keys. -/
theorem name_of_targetList {q : QueueName} {p p' : Priority}
    (h : targetList q p.name = targetList q p'.name) : p = p' := by
  have hlong : ∀ n : String, q ≠ q ++ ":" ++ n := by
    intro n hq
    have hlength := congrArg String.length hq
    simp only [String.length_append] at hlength
    have hcolon : ":".length = 1 := rfl
    omega
  have hcancel : ∀ n n' : String, q ++ ":" ++ n = q ++ ":" ++ n' → n = n' := by
    intro n n' hq
    have hlists := congrArg String.toList hq
    simp only [String.toList_append] at hlists
    exact String.toList_inj.mp (List.append_cancel_left hlists)
  cases p <;> cases p' <;> first | rfl | skip
  · exact absurd (Key.queue.inj h).symm (hlong _)
  · exact absurd (hcancel _ _ (Key.queue.inj h)) (by decide)
  · exact absurd (Key.queue.inj h) (hlong _)
  · exact absurd (Key.queue.inj h) (hlong _)
  · exact absurd (hcancel _ _ (Key.queue.inj h)) (by decide)
  · exact absurd (Key.queue.inj h).symm (hlong _)

/-- The list the job is taken from loses its tail, and the others stay. -/
theorem listOf_moved {p : Priority} {j : JobId} (hj : (listOf env w s p).getLast? = some j)
    (p' : Priority) : listOf env w (moved env w s p) p' =
      if p' = p then (listOf env w s p).dropLast else listOf env w s p' := by
  obtain ⟨y, hy⟩ := exists_targetList (env.queue w) p'.name
  have hne : targetList (env.queue w) p'.name ≠ redisKeys.processing w := by
    rw [hy]
    simp
  have hj' : (s.redis.lists (targetList (env.queue w) p.name)).getLast? = some j := hj
  simp only [listOf, moved, Redis.rpoplpush, hj']
  rw [Function.update_of_ne hne]
  by_cases hp : p' = p
  · subst hp
    rw [if_pos rfl, Function.update_self]
  · rw [if_neg hp, Function.update_of_ne fun hkey => hp (name_of_targetList hkey)]

/-- A search leaves the index alone. -/
theorem index_of_found {y : Except Err (Option JobId)} {o : Option Priority}
    (h : Found env w s y s' o) : indexOf w s' = indexOf w s := by
  cases o with
  | none => rw [h.2]
  | some p =>
      rw [h.2]
      rfl

/-- How a search for a job ends: it has taken the tail of the first list that has one. -/
theorem search_ends (hids : Proper env w s) :
    Ends (alone env (.loop w)) s (Worker.pullJobNonBlocking env w) fun y s' =>
      indexOf w s' = indexOf w s + 1 ∧ Found env w (advanced w s) y s'
        (firstReady env w s (Worker.getPriorityOrder (indexOf w s % 10))) := by
  refine ends_answered rfl (fun _ => rfl) ?_
  change Ends _ (advanced w s) _ _
  have hadvanced : indexOf w (advanced w s) = indexOf w s + 1 := by
    simp [indexOf, advanced, World.setWorker]
  refine (pullFrom_ends (show Proper env w (advanced w s) from hids) _).mono fun y s' hfound => ?_
  refine ⟨?_, hfound⟩
  rw [← hadvanced]
  exact index_of_found hfound

/-- `pullJob` is the search, and then a wait if nothing was found. -/
theorem pullJob_eq (env : Env) (w : WorkerId) : Worker.pullJob env w =
    Worker.pullJobNonBlocking env w >>= fun pulled =>
      match pulled with
      | some id => pure (some id)
      | none => redis.blmove (redisKeys.queue (env.queue w)) (redisKeys.processing w) :=
  (Prog.bind_assoc _ _ _).symm

/-- How a pull of either kind ends, if some list has a job. -/
theorem pull_ends {x : Round} (hx : Pulls env w x) (hids : Proper env w x.before) :
    indexOf w x.after = indexOf w x.before + 1 ∧
      ∀ p, firstReady env w x.before (Worker.getPriorityOrder (indexOf w x.before % 10)) = some p →
        (∃ j, (listOf env w x.before p).getLast? = some j ∧ x.result = some j) ∧
          x.after = moved env w (advanced w x.before) p := by
  have hsearch : ∀ {r s'}, Runs (alone env (.loop w)) x.before
      (Worker.pullJobNonBlocking env w) (.ok r) s' → _ := fun h => search_ends hids _ _ h
  rcases hx with hrun | hrun
  · obtain ⟨hindex, hfound⟩ := hsearch hrun
    refine ⟨hindex, fun p hp => ?_⟩
    rw [hp] at hfound
    obtain ⟨⟨j, hj, hr⟩, hafter⟩ := hfound
    exact ⟨⟨j, hj, Except.ok.inj hr⟩, hafter⟩
  · rw [pullJob_eq] at hrun
    rcases Prog.runs_bind hrun with ⟨pulled, s₁, hfirst, hrest⟩ | ⟨e, -, he⟩
    · obtain ⟨hindex, hfound⟩ := hsearch hfirst
      cases pulled with
      | none =>
          -- every list was empty: the pull has waited for the normal one
          have hwait : Ends (alone env (.loop w)) s₁
              (redis.blmove (redisKeys.queue (env.queue w)) (redisKeys.processing w))
              fun _ s' => indexOf w s' = indexOf w s₁ := by
            refine Prog.ends_perform fun y s' hstep => ?_
            obtain ⟨o, ho⟩ := answer_of_alone hstep rfl
            cases ho
            rfl
          refine ⟨(hwait _ _ hrest).trans hindex, fun p hp => ?_⟩
          rw [hp] at hfound
          obtain ⟨⟨j, -, hr⟩, -⟩ := hfound
          cases hr
      | some id =>
          have hsame : Ends (alone env (.loop w)) s₁ (pure (some id))
              fun y s' => y = .ok (some id) ∧ s' = s₁ := ends_pure ⟨rfl, rfl⟩
          obtain ⟨hr, hlast⟩ := hsame _ _ hrest
          rw [hlast]
          refine ⟨hindex, fun p hp => ?_⟩
          rw [hp] at hfound
          obtain ⟨⟨j, hj, hr'⟩, hafter⟩ := hfound
          exact ⟨⟨j, hj, Except.ok.inj (hr.trans hr')⟩, hafter⟩
    · cases he

/-- The first list that has a job gives it, and the other lists stay. -/
theorem from_of_first {x : Round} (hx : Pulls env w x) (hids : Proper env w x.before)
    {p : Priority}
    (hp : firstReady env w x.before (Worker.getPriorityOrder (indexOf w x.before % 10)) = some p)
    (p' : Priority) : From env w x p' ↔ p' = p := by
  obtain ⟨-, htaken⟩ := pull_ends hx hids
  obtain ⟨⟨j, hj, hresult⟩, hafter⟩ := htaken p hp
  have hlists : listOf env w x.after p' =
      if p' = p then (listOf env w x.before p).dropLast else listOf env w x.before p' := by
    rw [hafter]
    exact listOf_moved (s := advanced w x.before) hj p'
  constructor
  · rintro ⟨j', -, hlost⟩
    by_contra hne
    rw [hlists, if_neg hne] at hlost
    have hlength := congrArg List.length hlost
    simp at hlength
  · rintro rfl
    refine ⟨j, hresult, ?_⟩
    rw [hlists, if_pos rfl]
    exact (List.dropLast_append_getLast? j hj).symm

/-- Some list is tried first. -/
theorem order_ne_nil (i : ℕ) : Worker.getPriorityOrder i ≠ [] := by
  unfold Worker.getPriorityOrder
  split
  · simp
  · split <;> simp

/-- A list that is tried first and has a job gives it. -/
theorem firstReady_of_head {order : List Priority} {p : Priority} (hp : order.head? = some p)
    (hready : listOf env w s p ≠ []) : firstReady env w s order = some p := by
  cases order with
  | nil => cases hp
  | cons p' order =>
      cases hp
      simp [firstReady, hready]

/-! ## Ten pulls in a row -/

/-- How often a list is tried first in ten pulls. -/
def share : Priority → ℕ
  | .high => 6
  | .normal => 3
  | .low => 1

/-- How many of ten rounds take their job from a list. -/
def taken (env : Env) (w : WorkerId) (x : ℕ → Round) (p : Priority) : ℕ :=
  ((Finset.range 10).filter fun k => From env w (x k) p).card

/-- Wherever ten pulls in a row start, each list is tried first as often as its share. -/
theorem share_eq (i : ℕ) (p : Priority) : ((Finset.range 10).filter fun k =>
    (Worker.getPriorityOrder ((i + k) % 10)).head? = some p).card = share p := by
  have hsmall : ∀ r < 10, ∀ p ∈ [Priority.high, .normal, .low], ((Finset.range 10).filter fun k =>
      (Worker.getPriorityOrder ((r + k) % 10)).head? = some p).card = share p := by
    decide
  have hmod : ∀ k, (i + k) % 10 = (i % 10 + k) % 10 := fun k => by omega
  simp only [hmod]
  refine hsmall _ (Nat.mod_lt _ (by norm_num)) p ?_
  cases p <;> simp

/-- The index counts the pulls. -/
theorem index_of_round {x : ℕ → Round} (hx : ∀ k < 10, Pulls env w (x k))
    (hids : ∀ k < 10, Proper env w (x k).before)
    (hnext : ∀ k < 9, indexOf w (x (k + 1)).before = indexOf w (x k).after) :
    ∀ k < 10, indexOf w (x k).before = indexOf w (x 0).before + k := by
  intro k
  induction k with
  | zero => exact fun _ => rfl
  | succ k ih =>
      intro hk
      have hprev := ih (by omega)
      have hstep := (pull_ends (hx k (by omega)) (hids k (by omega))).1
      have hsame := hnext k (by omega)
      omega

/-- A list that has a job whenever it is tried gets its share. -/
theorem share_le_taken {x : ℕ → Round} (hx : ∀ k < 10, Pulls env w (x k))
    (hids : ∀ k < 10, Proper env w (x k).before)
    (hnext : ∀ k < 9, indexOf w (x (k + 1)).before = indexOf w (x k).after) {p : Priority}
    (hready : ∀ k < 10, listOf env w (x k).before p ≠ []) : share p ≤ taken env w x p := by
  rw [← share_eq (indexOf w (x 0).before) p]
  refine Finset.card_le_card fun k hk => ?_
  obtain ⟨hrange, hhead⟩ := Finset.mem_filter.mp hk
  have hk10 : k < 10 := Finset.mem_range.mp hrange
  refine Finset.mem_filter.mpr ⟨hrange, ?_⟩
  rw [← index_of_round hx hids hnext k hk10] at hhead
  exact (from_of_first (hx k hk10) (hids k hk10)
    (firstReady_of_head hhead (hready k hk10)) p).mpr rfl

/-- A round takes its job from one list only. -/
theorem from_unique {x : Round} (hx : Pulls env w x) (hids : Proper env w x.before)
    (hready : ∀ p, listOf env w x.before p ≠ []) {p p' : Priority} (h : From env w x p)
    (h' : From env w x p') : p = p' := by
  obtain ⟨p₁, hp₁⟩ : ∃ p₁, firstReady env w x.before
      (Worker.getPriorityOrder (indexOf w x.before % 10)) = some p₁ := by
    cases horder : Worker.getPriorityOrder (indexOf w x.before % 10) with
    | nil => exact absurd horder (order_ne_nil _)
    | cons p₁ order => exact ⟨p₁, firstReady_of_head rfl (hready p₁)⟩
  rw [(from_of_first hx hids hp₁ p).mp h, (from_of_first hx hids hp₁ p').mp h']

/-- The jobs of ten rounds are counted once, so no list has more than its share. -/
theorem taken_add_le {x : ℕ → Round}
    (hone : ∀ k < 10, ∀ p p', From env w (x k) p → From env w (x k) p' → p = p') :
    taken env w x .high + taken env w x .normal + taken env w x .low ≤ 10 := by
  have hdisjoint : ∀ p p', p ≠ p' →
      Disjoint ((Finset.range 10).filter fun k => From env w (x k) p)
        ((Finset.range 10).filter fun k => From env w (x k) p') := by
    intro p p' hne
    refine Finset.disjoint_left.mpr fun k hk hk' => hne ?_
    obtain ⟨hrange, hfrom⟩ := Finset.mem_filter.mp hk
    exact hone k (Finset.mem_range.mp hrange) p p' hfrom (Finset.mem_filter.mp hk').2
  unfold taken
  rw [← Finset.card_union_of_disjoint (hdisjoint _ _ (by decide)),
    ← Finset.card_union_of_disjoint (Finset.disjoint_union_left.mpr
      ⟨hdisjoint _ _ (by decide), hdisjoint _ _ (by decide)⟩)]
  refine (Finset.card_le_card (t := Finset.range 10) ?_).trans (by simp)
  intro k hk
  simp only [Finset.mem_union, Finset.mem_filter] at hk
  tauto

/-- If every list always has a job, every list gets exactly its share. -/
theorem taken_eq_share {x : ℕ → Round} (hx : ∀ k < 10, Pulls env w (x k))
    (hids : ∀ k < 10, Proper env w (x k).before)
    (hnext : ∀ k < 9, indexOf w (x (k + 1)).before = indexOf w (x k).after)
    (hready : ∀ k < 10, ∀ p, listOf env w (x k).before p ≠ []) (p : Priority) :
    taken env w x p = share p := by
  have hle : ∀ p, share p ≤ taken env w x p :=
    fun p => share_le_taken hx hids hnext fun k hk => hready k hk p
  have hsum := taken_add_le fun k hk _ _ => from_unique (hx k hk) (hids k hk) (hready k hk)
  have hhigh : 6 ≤ taken env w x .high := hle .high
  have hnormal : 3 ≤ taken env w x .normal := hle .normal
  have hlow : 1 ≤ taken env w x .low := hle .low
  cases p <;> simp only [share] <;> omega

/-! ## A pull among other processes -/

/-- One command of the pull loop, after other processes have done what they like but to the
list of this priority and to the worker process. -/
def crowded (env : Env) (w : WorkerId) (p : Priority) (s : World) (c : Cmd)
    (r : Except Err c.Resp) (s' : World) : Prop :=
  ∃ s₀, listOf env w s₀ p = listOf env w s p ∧ s₀.down w = s.down w ∧
    alone env (.loop w) s₀ c r s'

/-- The commands that do not wait for a job. -/
def Prompt (c : Cmd) : Prop := ∀ src dst, c ≠ .blmove src dst

/-- A search that comes to a list with a job returns one, whatever it finds before. -/
theorem pullFrom_completes {p : Priority} (hup : s.down w = false)
    (hready : listOf env w s p ≠ []) (hids : "" ∉ listOf env w s p) {order : List Priority}
    (horder : p ∈ order) :
    Completes (crowded env w p) Prompt s
      (Worker.pullFrom (env.queue w) (redisKeys.processing w) order)
      fun y _ => ∃ j, y = .ok (some j) := by
  induction order generalizing s with
  | nil => cases horder
  | cons p' order ih =>
      refine Prog.completes_step (fun _ _ h => by cases h) ?_ ?_ ?_
      · exact ⟨_, _, s, rfl, rfl, alone_of_answer (o := .plain) hup rfl rfl rfl⟩
      · rintro a s' ⟨s₀, hsame, hdown, hone⟩
        obtain ⟨o, ho⟩ := answer_of_alone hone rfl
        cases ho
        rw [← hsame] at hready hids
        cases hlast : (listOf env w s₀ p').getLast? with
        | none =>
            -- the list is empty: the search goes on in the same world
            have hempty : listOf env w s₀ p' = [] := List.getLast?_eq_none_iff.mp hlast
            have hne : p ≠ p' := by
              rintro rfl
              exact hready hempty
            rw [rpoplpush_of_empty hempty]
            exact ih (hdown.trans hup) hready hids ((List.mem_cons.mp horder).resolve_left hne)
        | some j =>
            rw [rpoplpush_of_last hlast]
            by_cases hj : j = ""
            · -- not a job: it is left in the processing list, and the search goes on
              subst hj
              have hne : p ≠ p' := by
                rintro rfl
                exact hids (List.mem_of_getLast? hlast)
              have hkeep : listOf env w (moved env w s₀ p') p = listOf env w s₀ p := by
                rw [listOf_moved hlast, if_neg hne]
              exact ih (s := moved env w s₀ p') (hdown.trans hup) (by rwa [hkeep])
                (by rwa [hkeep]) ((List.mem_cons.mp horder).resolve_left hne)
            · rw [truthy_some hj]
              exact Prog.completes_pure ⟨j, rfl⟩
      · rintro e s' ⟨s₀, -, -, hone⟩
        obtain ⟨o, ho⟩ := answer_of_alone hone rfl
        cases ho

/-- Every priority is tried. -/
theorem mem_order (i : ℕ) (p : Priority) : p ∈ Worker.getPriorityOrder i := by
  unfold Worker.getPriorityOrder
  split
  · cases p <;> decide
  · split <;> cases p <;> decide

/-- A search for a job returns one if some list has a job all the while. -/
theorem search_completes {p : Priority} (hup : s.down w = false) (hready : listOf env w s p ≠ [])
    (hids : "" ∉ listOf env w s p) :
    Completes (crowded env w p) Prompt s (Worker.pullJobNonBlocking env w)
      fun y _ => ∃ j, y = .ok (some j) := by
  refine Prog.completes_step (fun _ _ h => by cases h) ?_ ?_ ?_
  · exact ⟨_, _, s, rfl, rfl, alone_of_answer (o := .plain) hup rfl rfl rfl⟩
  · rintro a s' ⟨s₀, hsame, hdown, hone⟩
    obtain ⟨o, ho⟩ := answer_of_alone hone rfl
    cases ho
    rw [← hsame] at hready hids
    exact pullFrom_completes (s := advanced w s₀) (hdown.trans hup) hready hids (mem_order _ p)
  · rintro e s' ⟨s₀, -, -, hone⟩
    obtain ⟨o, ho⟩ := answer_of_alone hone rfl
    cases ho

/-- And then `pullJob` does not wait. -/
theorem pullJob_completes {p : Priority} (hup : s.down w = false)
    (hready : listOf env w s p ≠ []) (hids : "" ∉ listOf env w s p) :
    Completes (crowded env w p) Prompt s (Worker.pullJob env w)
      fun y _ => ∃ j, y = .ok (some j) := by
  rw [pullJob_eq]
  refine Prog.completes_bind _ (search_completes hup hready hids) ?_ ?_
  · rintro a s' ⟨j, hj⟩
    cases hj
    exact Prog.completes_pure ⟨j, rfl⟩
  · rintro e s' ⟨j, hj⟩
    cases hj

/-- Ten pulls in a row, each alone, with the lists changing in any way in between: if every list
has a job at each pull, six are from `high`, three from `normal` and one from `low`; a list
that has a job at each pull gets at least as many.  And a pull returns a job without waiting
if one of the lists has jobs and is not changed meanwhile. -/
theorem fair_share (env : Env) (w : WorkerId) :
    (∀ x : ℕ → Round, (∀ k < 10, Pulls env w (x k)) →
      (∀ k < 10, Proper env w (x k).before) →
      (∀ k < 9, indexOf w (x (k + 1)).before = indexOf w (x k).after) →
      ((∀ k < 10, ∀ p, listOf env w (x k).before p ≠ []) →
        taken env w x .high = 6 ∧ taken env w x .normal = 3 ∧ taken env w x .low = 1) ∧
      ∀ p, (∀ k < 10, listOf env w (x k).before p ≠ []) → share p ≤ taken env w x p) ∧
    ∀ s p, s.down w = false → listOf env w s p ≠ [] → "" ∉ listOf env w s p →
      Completes (crowded env w p) Prompt s (Worker.pullJobNonBlocking env w)
          (fun y _ => ∃ j, y = .ok (some j)) ∧
        Completes (crowded env w p) Prompt s (Worker.pullJob env w)
          (fun y _ => ∃ j, y = .ok (some j)) := by
  refine ⟨fun x hx hids hnext => ⟨fun hready => ?_, fun p hready => ?_⟩, ?_⟩
  · have heq := taken_eq_share hx hids hnext hready
    exact ⟨heq .high, heq .normal, heq .low⟩
  · exact share_le_taken hx hids hnext hready
  · intro s p hup hready hids
    exact ⟨search_completes hup hready hids, pullJob_completes hup hready hids⟩

/-- A world with a job in every list. -/
def full (k : ℕ) : World where
  redis := { lists := fun _ => ["j"] }
  workers _ := { pullIndex := k }

/-- Pulls that each find a job in every list. -/
def fullRound (k : ℕ) : Round where
  before := full k
  result := some "j"
  after := moved sample "w" (advanced "w" (full k))
    ((Worker.getPriorityOrder (k % 10)).headD .low)

theorem fair_share_full :
    (taken sample "w" fullRound .high = 6 ∧ taken sample "w" fullRound .normal = 3 ∧
        taken sample "w" fullRound .low = 1) ∧
      Completes (crowded sample "w" .low) Prompt (full 0) (Worker.pullJob sample "w")
        fun y _ => ∃ j, y = .ok (some j) := by
  have hpull : ∀ k < 10, Pulls sample "w" (fullRound k) := by
    intro k hk
    interval_cases k <;>
      exact Or.inl (.call ⟨.plain, rfl, rfl⟩ (.call ⟨.plain, rfl, rfl⟩ .ret))
  have hjob : ∀ k p, listOf sample "w" (full k) p = ["j"] := fun _ _ => rfl
  have hproper : ∀ k < 10, Proper sample "w" (fullRound k).before := by
    intro k _ p
    rw [show listOf sample "w" (fullRound k).before p = ["j"] from rfl]
    decide
  refine ⟨((fair_share sample "w").1 fullRound hpull hproper fun _ _ => rfl).1 ?_,
    ((fair_share sample "w").2 (full 0) .low rfl ?_ ?_).2⟩
  · intro k _ p
    exact List.cons_ne_nil _ _
  · exact List.cons_ne_nil _ _
  · rw [hjob]
    decide

end Fairness

end NexusQueue
