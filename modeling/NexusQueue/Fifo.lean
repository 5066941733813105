/-
# Ready lists are first in, first out

Workers take ids from a ready list by two commands and from two drivers, the pull loop and
`processAvailable`; which list a worker tries depends on how often it has pulled.  Every
pull takes the tail of the list and every new job enters at its head.  So as long as no id
is given back to the list, the ids pulled from it are the ids enqueued first, in that order
and each of them once (`pulled_in_order`).

The order of all pulls and all enqueues is the journal of the run.
-/
import NexusQueue.Journal
import NexusQueue.Tokens
import NexusQueue.Conduct
import NexusQueue.Transition

namespace NexusQueue

namespace Fifo

/-! ## The deployment with both drivers -/

/-- What runs in the deployment: a task, or a round of `processAvailable`. -/
inductive Activity where
  | task (t : Task)
  | available (w : WorkerId)

/-- The task an activity behaves like: a round of `processAvailable` runs in the process of
its worker and holds an id between its pull and its dispatch, as the loop does. -/
def Activity.guise : Activity → Task
  | .task t => t
  | .available w => .loop w

/-- The program of an activity. -/
def run (env : Env) : Activity → Async (Option JobId)
  | .task t => body env t
  | .available w => do Worker.processAvailable env w; pure none

/-- The activities a command starts: a driver starts its own next round. -/
def starts : Activity → (c : Cmd) → Except Err c.Resp → List Activity
  | .task t, c, r => (forks t c r).map .task
  | .available w, .onWorker _ .loopAgain, .ok _ => [.available w]
  | .available _, .onWorker w (.dispatch j), .ok n => [.task (.processOne w n j)]
  | .available _, _, _ => []

/-- The deployment with both drivers. -/
def deployment (env : Env) :
    Machine World Activity Cmd Cmd.Resp Err (Option JobId) Oracle Move where
  body := run env
  exec s a c o := World.exec env s a.guise c o
  forks := starts
  drift := World.drift

/-- The custody protocol, for all activities. -/
def manned (env : Env) : Protocol Activity Cmd Cmd.Resp Err Phase where
  start a := Phase.start a.guise
  permits a := Permits env a.guise
  next a := Phase.next a.guise

section Conduct

variable {env : Env}

/-- What keeps to custody in its guise does so. -/
theorem follows_manned {a : Activity} {α : Type} {p : Async α} {l : Phase}
    {Q : Except Err α → Phase → Prop} (h : Follows (custody env) a.guise l p Q) :
    Follows (manned env) a l p Q := by
  induction p generalizing l with
  | ret x => exact h
  | raise e => exact h
  | call c k ih => exact ⟨h.1, fun r => ih r (h.2 r)⟩

/-- A round of `processAvailable` holds what it has pulled until it is dispatched. -/
theorem processAvailable_follows (w : WorkerId) :
    Follows (custody env) (.loop w) .idle (Worker.processAvailable env w) Anyhow := by
  have object : ∀ {op : Local}, op.inert → (custody env).permits (.loop w) .idle (.onWorker w op) :=
    fun hop => .object rfl hop
  refine follows_step (object trivial) (fun activeJobs => ?_) (fun _ => trivial)
  split
  · exact follows_step (object trivial) (fun _ => follows_last .loopAgain) (fun _ => trivial)
  · have hpull : Follows (custody env) (.loop w) .idle (Worker.pullJobNonBlocking env w)
        Carries :=
      follows_step (object trivial) (fun idx => pullFrom_follows w _) (fun _ => rfl)
    refine follows_bind _ hpull (fun r l hl => ?_) (fun _ _ _ => trivial)
    cases h : truthy r with
    | some id =>
        have hid : l = .pulled id := by rw [hl, h]; rfl
        subst hid
        refine follows_step .dispatch (fun _ => ?_) (fun _ => trivial)
        exact follows_last .loopAgain
    | none =>
        have hidle : l = .idle := by rw [hl, h]; rfl
        subst hidle
        refine follows_step (object trivial) (fun activeJobs => ?_) (fun _ => trivial)
        refine follows_forEach (fun _ l => l = .idle) ?_ (fun _ _ => trivial) _ _ rfl
        rintro call calls _ rfl
        refine follows_perform (object trivial) fun r => ?_
        cases r with
        | ok _ => rfl
        | error _ => trivial

/-- **Every activity keeps to custody.** -/
theorem manned_follows (a : Activity) :
    Follows (manned env) a ((manned env).start a) (run env a) fun _ _ => True := by
  cases a with
  | task t =>
      exact follows_mono (follows_manned (a := .task t) (custody_follows t)) fun _ _ _ => trivial
  | available w =>
      refine follows_manned (a := .available w) ?_
      exact follows_finish (processAvailable_follows w)

end Conduct

/-! ## What enters a list and what leaves it -/

/-- The list and the id of the `MULTI` that enqueues a new job. -/
def publishes : Cmd → Option (Key × JobId)
  | .multi [.sadd _ _, .hset _ _, .lpush k id] => some (k, id)
  | _ => none

/-- The command gives a job back to the list: the `LPUSH` of a promotion, a recovery or a
request, or the `MULTI` of a denial. -/
def givesBack (k : Key) : Cmd → Bool
  | .write (.lpush k' _) | .multi [.lrem _ _ _, .lpush k' _] => k' = k
  | _ => false

/-- The id an event enqueues to the list, if any. -/
def enqueuedBy (k : Key) (e : Event Cmd Cmd.Resp Err) : List JobId :=
  match publishes e.cmd, e.answer with
  | some (k', id), .ok _ => if k' = k then [id] else []
  | _, _ => []

/-- The id an event pulls from the list, if any. -/
def pulledBy (k : Key) (e : Event Cmd Cmd.Resp Err) : List JobId :=
  match e.cmd.pulled e.answer with
  | some (k', id) => if k' = k then [id] else []
  | none => []

/-- The ids enqueued to a list, in the order in which their `MULTI` executed. -/
def enqueued (k : Key) (journal : List (Event Cmd Cmd.Resp Err)) : List JobId :=
  journal.flatMap (enqueuedBy k)

/-- The ids pulled from a list, by whatever workers, in the order of the pulls. -/
def pulled (k : Key) (journal : List (Event Cmd Cmd.Resp Err)) : List JobId :=
  journal.flatMap (pulledBy k)

section Step

variable {env : Env} {s s' : World} {t : Task} {l l' : Phase} {c : Cmd} {o : Oracle}
  {r : Except Err c.Resp} {ts : List Task} {x : String}

/-- The list after the event: what is enqueued enters it behind everything that is there, and
what is pulled was at its front. -/
def InOrder (k : Key) (s s' : World) (e : Event Cmd Cmd.Resp Err) : Prop :=
  (s.redis.lists k).reverse ++ enqueuedBy k e = pulledBy k e ++ (s'.redis.lists k).reverse

/-- An event that has nothing to do with the list. -/
theorem InOrder.aside {k : Key} {e : Event Cmd Cmd.Resp Err} (hin : enqueuedBy k e = [])
    (hout : pulledBy k e = []) (hlist : s'.redis.lists k = s.redis.lists k) : InOrder k s s' e := by
  show _ ++ _ = _ ++ _
  rw [hin, hout, hlist, List.append_nil, List.nil_append]

/-- A neutral command has nothing to do with any list. -/
theorem InOrder.neutral (hn : c.neutral) (hf : s.Frame s') : InOrder (.queue x) s s' ⟨c, r⟩ := by
  refine .aside ?_ ?_ (hf.ready x)
  · cases c <;> first | rfl | exact hn.elim
  · cases c <;> first | rfl | exact hn.elim

/-- `RPOPLPUSH` takes the id that entered first. -/
theorem rpoplpush_order (q : Redis) (src : Key) {k dst : Key} (hdst : dst ≠ k) :
    (q.lists k).reverse =
      ((q.rpoplpush src dst).1.elim [] fun id => if src = k then [id] else []) ++
        ((q.rpoplpush src dst).2.lists k).reverse := by
  unfold Redis.rpoplpush
  cases hlast : (q.lists src).getLast? with
  | none => rfl
  | some id =>
      dsimp only [Option.elim]
      rw [Function.update_of_ne (Ne.symm hdst), Function.update_apply]
      by_cases hsrc : k = src
      · subst hsrc
        obtain ⟨rest, hrest⟩ := List.getLast?_eq_some_iff.mp hlast
        rw [if_pos rfl, if_pos rfl, hrest, List.dropLast_concat, List.reverse_concat]
        rfl
      · rw [if_neg (Ne.symm hsrc), if_neg hsrc]
        rfl

/-- A pull takes the id that entered first. -/
theorem InOrder.pull {y : String} {w : WorkerId}
    (hc : c = .rpoplpush (.queue y) (redisKeys.processing w) ∨
      c = .blmove (.queue y) (redisKeys.processing w))
    (ha : World.answer env s o c = some (r, s')) : InOrder (.queue x) s s' ⟨c, r⟩ := by
  have hne : redisKeys.processing w ≠ .queue x := by
    intro heq
    cases heq
  have horder := rpoplpush_order s.redis (.queue y) hne
  rcases hc with rfl | rfl
  all_goals
    cases ha
    show _ ++ [] = _ ++ _
    rw [List.append_nil, horder]
    congr 1
    unfold pulledBy
    cases (s.redis.rpoplpush (.queue y) (redisKeys.processing w)).1 <;> rfl

/-- A new job enters behind all others. -/
theorem InOrder.publish {id : JobId} {q p : String} {f : JobHash} :
    InOrder (.queue x) s ((s.register id q f).push (targetList q p) id)
      ⟨.multi [.sadd redisKeys.queueRegistry q, .hset (redisKeys.job id) f,
        .lpush (targetList q p) id], .ok ()⟩ := by
  show _ ++ (if targetList q p = .queue x then [id] else []) = [] ++ List.reverse _
  dsimp only [World.push, World.setList, World.register]
  rw [List.nil_append, Function.update_apply]
  by_cases hk : .queue x = targetList q p
  · rw [if_pos hk.symm, if_pos hk, List.reverse_cons, hk]
  · rw [if_neg (Ne.symm hk), if_neg hk, List.append_nil]

/-- Another list is replaced. -/
theorem lists_setList {k k' : Key} {q : List String} (h : k' ≠ k) :
    (s.setList k' q).redis.lists k = s.redis.lists k :=
  Function.update_of_ne (Ne.symm h) ..

/-- An id is put into another list. -/
theorem lists_push {k k' : Key} {j : String} (h : decide (k' = k) = false) :
    (s.push k' j).redis.lists k = s.redis.lists k :=
  lists_setList (of_decide_eq_false h)

/-- **Step lemma.**  Every effect keeps the order, unless it gives a job back. -/
theorem order_of_effect (he : Effect env s t l c r s' l' ts)
    (ha : World.answer env s o c = some (r, s')) (hback : givesBack (.queue x) c = false) :
    InOrder (.queue x) s s' ⟨c, r⟩ := by
  cases he with
  | still hn hf _ => exact .neutral hn hf
  | pull hc _ _ | pullNothing hc => exact .pull hc ha
  | publishReady _ _ _ _ => exact .publish
  | promote | pushOrphan | place _ => exact .aside rfl rfl (lists_push hback)
  | pushBack =>
      refine .aside rfl rfl ((lists_push hback).trans (lists_setList ?_))
      intro heq
      cases heq
  | bury | brokenBury => exact .aside rfl rfl (lists_push (decide_eq_false (by simp)))
  | ack | brokenAck | lift _ =>
      refine .aside rfl rfl (lists_setList ?_)
      intro heq
      cases heq
  | dropHeartbeat | dropList => exact .aside rfl rfl (by simp [Write.apply])
  | _ => exact .aside rfl rfl rfl

end Step

/-! ## New jobs -/

/-- The id of a job that is being created and not enqueued yet. -/
def carries : Phase → Option JobId
  | .drawn id | .rowed id => some id
  | _ => none

/-- No job is created twice: what is carried and what has been enqueued are different uuids. -/
structure Once (k : Key) (s : World × List (Event Cmd Cmd.Resp Err)) (g : JobId → ℕ) :
    Prop where
  one : ∀ id, g id + (enqueued k s.2).count id ≤ 1
  drawn : ∀ id, 0 < g id + (enqueued k s.2).count id → id ∈ s.1.ids

/-- The pulled ids and the list, read from its tail, are the enqueued ids. -/
structure Ordered (k : Key) (s : World × List (Event Cmd Cmd.Resp Err)) (g : JobId → ℕ) :
    Prop extends Once k s g where
  order : enqueued k s.2 = pulled k s.2 ++ (s.1.redis.lists k).reverse

section Once

variable {env : Env} {s s' : World} {t : Task} {l l' : Phase} {c : Cmd} {r : Except Err c.Resp}
  {ts : List Task} {k : Key} {journal : List (Event Cmd Cmd.Resp Err)} {g g' : JobId → ℕ}

/-- Nothing is enqueued that is not carried. -/
theorem carried_of_effect (he : Effect env s t l c r s' l' ts) :
    (∃ id, id ∉ s.ids ∧ s'.ids = insert id s.ids ∧ carries l = none ∧ l' = .drawn id ∧
      enqueuedBy k ⟨c, r⟩ = []) ∨
    ∀ id, holding (carries l') id + (enqueuedBy k ⟨c, r⟩).count id ≤ holding (carries l) id := by
  have less : carries l' = none → enqueuedBy k ⟨c, r⟩ = [] →
      ∀ id, holding (carries l') id + (enqueuedBy k ⟨c, r⟩).count id ≤ holding (carries l) id := by
    intro hl hin id
    rw [hl, hin]
    exact Nat.zero_le _
  have same : carries l' = carries l → enqueuedBy k ⟨c, r⟩ = [] →
      ∀ id, holding (carries l') id + (enqueuedBy k ⟨c, r⟩).count id ≤ holding (carries l) id := by
    intro hl hin id
    rw [hl, hin]
    exact le_rfl
  cases he with
  | draw hcreates hpermits hid hne =>
      refine Or.inl ⟨_, hid, rfl, ?_, rfl, rfl⟩
      cases hpermits with
      | quiet hq => exact hq.elim
      | uuidKeyless | uuidMissed => rfl
      | uuidCron hl => cases l <;> first | rfl | exact hl.elim
  | still hn _ _ =>
      refine Or.inr (same rfl ?_)
      cases c <;> first | rfl | exact hn.elim
  | handler | inert _ _ => exact Or.inr (same rfl rfl)
  | insert _ _ _ _ _ => exact Or.inr (same rfl rfl)
  | settle =>
      refine Or.inr (same ?_ rfl)
      cases l <;> rfl
  | @publishReady t id q p f hcreates _ _ _ =>
      refine Or.inr fun id' => ?_
      have hnone : carries (t.published id) = none := by
        cases t <;> rfl
      rw [hnone, holding_none]
      show 0 + List.count id' (if targetList q p = k then [id] else []) ≤
        if some id = some id' then 1 else 0
      split
      · simp [List.count_singleton]
      · exact Nat.zero_le _
  | publishDelayed hcreates _ _ =>
      refine Or.inr (less ?_ rfl)
      cases t <;> rfl
  | pull hc _ _ =>
      refine Or.inr (less ?_ ?_)
      · cases truthy (some _) <;> rfl
      · rcases hc with rfl | rfl <;> rfl
  | pullNothing hc =>
      refine Or.inr (less rfl ?_)
      rcases hc with rfl | rfl <;> rfl
  | _ => exact Or.inr (less rfl rfl)

/-- Everything that is written down counts. -/
theorem enqueued_concat (e : Event Cmd Cmd.Resp Err) :
    enqueued k (journal ++ [e]) = enqueued k journal ++ enqueuedBy k e := by
  simp [enqueued]

theorem pulled_concat (e : Event Cmd Cmd.Resp Err) :
    pulled k (journal ++ [e]) = pulled k journal ++ pulledBy k e := by
  simp [pulled]

/-- A rejected command enqueues nothing and pulls nothing. -/
theorem by_error (c : Cmd) (e : Err) :
    enqueuedBy k ⟨c, .error e⟩ = [] ∧ pulledBy k ⟨c, .error e⟩ = [] := by
  constructor
  · unfold enqueuedBy
    split
    · rename_i hanswer
      cases hanswer
    · rfl
  · cases c <;> rfl

/-- What is enqueued was carried. -/
theorem Once.mono {j j' : List (Event Cmd Cmd.Resp Err)} (h : Once k (s, j) g)
    (hids : s.ids ⊆ s'.ids)
    (hle : ∀ id, g' id + (enqueued k j').count id ≤ g id + (enqueued k j).count id) :
    Once k (s', j') g' where
  one id := (hle id).trans (h.one id)
  drawn id hid := hids (h.drawn id (hid.trans_le (hle id)))

/-- A new uuid is drawn. -/
theorem Once.draw {e : Event Cmd Cmd.Resp Err} {id : JobId} (h : Once k (s, journal) g)
    (hid : id ∉ s.ids) (hids : s'.ids = insert id s.ids) (he : enqueuedBy k e = []) :
    Once k (s', journal ++ [e]) (holding (some id) + g) := by
  have hzero : g id + (enqueued k journal).count id = 0 := by
    by_contra hne
    have hpos : 0 < g id + (enqueued k journal).count id := by omega
    exact hid (h.drawn id hpos)
  have hsame : enqueued k (journal ++ [e]) = enqueued k journal := by
    rw [enqueued_concat, he, List.append_nil]
  constructor
  · intro j
    have hone := h.one j
    rw [hsame, Pi.add_apply, holding_some]
    by_cases hj : id = j
    · subst hj
      rw [if_pos rfl]
      omega
    · rw [if_neg hj, zero_add]
      exact hone
  · intro j hj
    rw [hsame, Pi.add_apply, holding_some] at hj
    show j ∈ s'.ids
    rw [hids, Finset.mem_insert]
    by_cases hji : id = j
    · exact Or.inl hji.symm
    · rw [if_neg hji, zero_add] at hj
      exact Or.inr (h.drawn j hj)

/-- **Step lemma.**  An answered command keeps the order. -/
theorem Ordered.answer {x : String} {o : Oracle}
    (h : Ordered (.queue x) (s, journal) (holding (carries l) + g))
    (he : Effect env s t l c r s' l' ts) (ha : World.answer env s o c = some (r, s'))
    (hback : givesBack (.queue x) c = false) :
    Ordered (.queue x) (s', journal ++ [⟨c, r⟩]) (holding (carries l') + g) := by
  refine { toOnce := ?_, order := ?_ }
  · rcases carried_of_effect (k := .queue x) he with ⟨id, hid, hids, hl, rfl, hin⟩ | hle
    · have hcarried := h.toOnce
      rw [hl, holding_none_add] at hcarried
      exact hcarried.draw hid hids hin
    · refine h.toOnce.mono (ids_of_effect he) fun id => ?_
      have hone := hle id
      rw [enqueued_concat, List.count_append, Pi.add_apply, Pi.add_apply]
      omega
  · have horder : InOrder (.queue x) s s' ⟨c, r⟩ := order_of_effect he ha hback
    calc enqueued (.queue x) (journal ++ [⟨c, r⟩])
        = pulled (.queue x) journal ++
            ((s.redis.lists (.queue x)).reverse ++ enqueuedBy (.queue x) ⟨c, r⟩) := by
          rw [enqueued_concat, h.order, List.append_assoc]
      _ = pulled (.queue x) (journal ++ [⟨c, r⟩]) ++ (s'.redis.lists (.queue x)).reverse := by
          rw [horder, pulled_concat, List.append_assoc]

/-- A rejected command keeps the order, too. -/
theorem Ordered.reject {x : String} {e : Err}
    (h : Ordered (.queue x) (s, journal) (holding (carries l) + g))
    (hl : ∀ id, holding (carries l') id ≤ holding (carries l) id) :
    Ordered (.queue x) (s, journal ++ [⟨c, .error e⟩]) (holding (carries l') + g) := by
  obtain ⟨hin, hout⟩ := by_error (k := .queue x) c e
  have henq : enqueued (.queue x) (journal ++ [⟨c, .error e⟩]) = enqueued (.queue x) journal := by
    rw [enqueued_concat, hin, List.append_nil]
  refine { toOnce := ?_, order := ?_ }
  · refine h.toOnce.mono subset_rfl fun id => ?_
    have hle := hl id
    rw [henq, Pi.add_apply, Pi.add_apply]
    omega
  · rw [henq, pulled_concat, hout, List.append_nil]
    exact h.order

end Once

/-! ## Every run -/

/-- A state of the deployment with both drivers, and its journal. -/
abbrev Journaled :=
  Config (World × List (Event Cmd Cmd.Resp Err)) Activity Cmd Cmd.Resp Err (Option JobId)

/-- The command the `i`-th process executes next. -/
def nextOf (c : Journaled) (i : ℕ) : Option Cmd :=
  c.pool[i]?.bind fun p => match p.prog with
    | .call cmd _ => some cmd
    | _ => none

/-- Anything may happen, but no id is given back to the list. -/
def Undisturbed (k : Key) (c : Journaled) : Choice Activity Oracle Move → Prop
  | .start (.task t) => t.external
  | .call i o => o.works = true → ∀ cmd ∈ nextOf c i, givesBack k cmd = false
  | _ => True

instance (k : Key) (c : Journaled) : (a : Choice Activity Oracle Move) →
    Decidable (Undisturbed k c a)
  | .start (.task t) => inferInstanceAs (Decidable t.external)
  | .call i o => inferInstanceAs (Decidable
      (o.works = true → ∀ cmd ∈ nextOf c i, givesBack k cmd = false))
  | .start (.available _) | .halt _ | .drift _ => .isTrue trivial

/-- Order as a discipline over the custody protocol. -/
def ordering (env : Env) (x : String) :
    Discipline (deployment env).journal (manned env) (JobId → ℕ) where
  good _ := True
  val _ l := holding (carries l)
  emit _ _ _ _ := 0
  loc _ _ _ := True
  inv := Ordered (.queue x)
  allow _ _ _ _ c o := o.works = true → givesBack (.queue x) c = false
  post _ _ _ := True

section Run

variable {env : Env} {x : String} {c : Journaled}

/-- No activity starts with a job. -/
theorem carries_start (t : Task) : carries (Phase.start t) = none := by
  cases t with
  | requeue q b => rcases Phase.start_requeue q b with h | ⟨_, -, h⟩ <;> rw [h] <;> rfl
  | _ => rfl

/-- A rejection gives an activity no job. -/
theorem carries_error (t : Task) (l : Phase) (cmd : Cmd) (id : JobId) :
    holding (carries (l.afterError t cmd)) id ≤ holding (carries l) id := by
  have hcases : carries (l.afterError t cmd) = carries l ∨
      carries (l.afterError t cmd) = none := by
    cases t with
    | processOne _ _ _ => cases cmd <;> first | exact Or.inl rfl | exact Or.inr rfl
    | requeue _ _ =>
        cases cmd
        case publish => exact Or.inl rfl
        case now => exact Or.inl rfl
        all_goals cases l <;> exact Or.inl rfl
    | _ => exact Or.inr rfl
  rcases hcases with heq | heq
  · rw [heq]
  · rw [heq, holding_none]
    exact Nat.zero_le _

/-- **Order is a sound discipline.** -/
theorem ordering_sound : (ordering env x).Sound (Undisturbed (.queue x)) where
  follows a _ := manned_follows a
  call s a l cmd o r s' F h := by
    have hforks : (ordering env x).starts ((deployment env).journal.forks a cmd r) = 0 :=
      (ordering env x).starts_eq_zero _ fun a' _ => by
        show holding (carries (Phase.start a'.guise)) = 0
        rw [carries_start, holding_none]
    rw [hforks, add_zero]
    refine ⟨?_, trivial, fun _ _ => ⟨trivial, trivial⟩⟩
    show Ordered (.queue x) s' (holding (carries (Phase.next a.guise l cmd r)) + (0 + F))
    rw [zero_add]
    obtain ⟨s, journal⟩ := s
    obtain ⟨s', journal'⟩ := s'
    obtain ⟨hex, hjournal⟩ := Machine.journal_exec h.exec
    obtain rfl : journal' = journal ++ [⟨cmd, r⟩] := hjournal
    change World.exec env s a.guise cmd o = some (r, s') at hex
    have hinv : Ordered (.queue x) (s, journal) (holding (carries l) + F) := h.inv
    rcases (exec_cases hex).2 with ⟨err, -, -, rfl, rfl⟩ | ⟨ho, ha⟩
    · exact hinv.reject (carries_error a.guise l cmd)
    · exact hinv.answer (effect_of_answer h.permits ha) ha (h.allow (Oracle.works_of_takes ho))
  stable _ _ _ _ _ _ _ _ _ _ _ _ _ _ _ := trivial
  start c a _ hc := by
    refine ⟨trivial, ?_, trivial⟩
    show Ordered (.queue x) c.store (holding (carries (Phase.start a.guise)) + _)
    rw [carries_start, holding_none_add]
    exact hc.1
  allows c i o p cmd next hok hc hp hprog ho := by
    refine hok ho cmd ?_
    simp [nextOf, hp, hprog]
  drift c d s' _ hc hd := by
    refine ⟨?_, fun _ _ _ _ => trivial⟩
    obtain ⟨hdrift, hjournal⟩ := Machine.journal_drift hd
    obtain ⟨⟨hone, hdrawn⟩, horder⟩ := hc.1
    obtain ⟨s', journal'⟩ := s'
    obtain rfl : journal' = c.store.2 := hjournal
    change World.drift c.store.1 d = some s' at hdrift
    cases d <;> cases hdrift <;> exact ⟨⟨hone, hdrawn⟩, horder⟩

/-- Empty stores, no activity, nothing written down. -/
def Fresh (c : Journaled) : Prop :=
  ∃ now room, c = ⟨({ clock := now, pg := .emptyWith room }, []), []⟩

/-- **First in, first out.**  In every run in which no id is given back to a ready list: the
ids pulled from it, by whatever workers and commands, are a prefix of the ids enqueued to it,
in the order in which they were enqueued, and no id is enqueued twice. -/
theorem pulled_in_order (hc : (deployment env).journal.Reach (Undisturbed (.queue x)) Fresh c) :
    pulled (.queue x) c.store.2 <+: enqueued (.queue x) c.store.2 ∧
      (enqueued (.queue x) c.store.2).Nodup := by
  have hinit : ∀ c, Fresh c → (ordering env x).PoolOk c := by
    rintro _ ⟨now, room, rfl⟩
    refine ⟨⟨⟨fun id => ?_, fun id hid => ?_⟩, rfl⟩, fun p hp => by cases hp⟩
    · exact Nat.zero_le _
    · exact absurd hid (lt_irrefl 0)
  obtain ⟨hone, -⟩ := (ordering_sound.reach hinit hc).1.toOnce
  refine ⟨⟨_, (ordering_sound.reach hinit hc).1.order.symm⟩, ?_⟩
  exact List.nodup_iff_count_le_one.mpr fun id => le_trans (Nat.le_add_left _ _) (hone id)

/-- The next `n` commands of the `i`-th process. -/
def calls (i n : ℕ) : List (Choice Activity Oracle Move) := List.replicate n (.call i .plain)

/-- The `i`-th process enqueues a job. -/
def enqueues (i : ℕ) (id : Uuid) : List (Choice Activity Oracle Move) :=
  [.start (.task (.enqueue "send" (some .null) {})), .call i (.fresh id)] ++ calls i 3

/-- The theorem on a run in which one worker pulls the first job with `RPOPLPUSH`, from
`processAvailable`, and another one the second job with `BLMOVE`, from its loop. -/
theorem pulled_in_order_two :
    ∃ c, (deployment sample).journal.Reach (Undisturbed (.queue "default")) Fresh c ∧
      pulled (redisKeys.queue "default") c.store.2 = [j1.text, j2.text] ∧
      pulled (redisKeys.queue "default") c.store.2 <+:
        enqueued (redisKeys.queue "default") c.store.2 ∧
      (enqueued (redisKeys.queue "default") c.store.2).Nodup := by
  obtain ⟨c, hc, ht⟩ := Machine.exists_reach (deployment sample).journal
    (Undisturbed (.queue "default")) Fresh ⟨0, fun _ _ _ => true, rfl⟩
    ([.start (.task (.start "w2"))] ++ calls 0 8 ++ calls 1 5 ++ enqueues 2 j1 ++
      enqueues 3 j2 ++ [.start (.available "w1")] ++ calls 4 4 ++ calls 1 1 ++ enqueues 5 j3)
    (fun c => decide (pulled (redisKeys.queue "default") c.store.2 = [j1.text, j2.text]))
    (by decide +kernel)
  exact ⟨c, hc, of_decide_eq_true ht, pulled_in_order hc⟩

end Run

end Fifo

end NexusQueue
