/-
# A live worker holds no claim it is not working on

A pull puts an entry on the processing list of a worker, and the `processOne` call of
the pull is to remove it.  There are exits that do not: a call whose hash is missing
returns at once, and a command that is rejected outside the `try` of the handler ends the
call where it is.

Where no call takes one of these exits, every entry of the list belongs to a pull whose
call has not settled, whatever else happens to the list.
-/
import NexusQueue.Course
import NexusQueue.Transition

namespace NexusQueue

namespace Claims

/-! ## Exits -/

/-- The next command of a call does not make it leak its entry: it is not rejected
outside the `try` of the handler, a job that is read has a name, and the attempts that
`handleFailure` reads are a number. -/
def keeps (s : World) (o : Oracle) : Course → Cmd → Bool
  | _, .publish _ => true
  | .fetching, .hgetall k => o.works && (truthy (s.redis.jobs k).jobName).isSome
  | .active _, .hgetall k | .thrown, .hgetall k => o.works && (s.redis.jobs k).tried.isSome
  | .fetching, cmd | .claimed _, cmd | .marked _, cmd | .active _, cmd | .thrown, cmd
  | .failing _, cmd | .clocked _ _, cmd => o.takes cmd
  | _, _ => true

/-- Where a process is in its call. -/
abbrev courseOf (p : Process) : Course := course.phase p.task p.hist

/-- No call of the worker `w` leaks its entry. -/
def KeepsClaims (w : WorkerId) (c : State) : Action → Prop
  | .start t => t.external
  | .call i o => ∀ p ∈ c.pool[i]?, p.task.host = some w → ∀ cmd ∈ nextCmd c i,
      keeps c.store o (courseOf p) cmd = true
  | _ => True

instance (w : WorkerId) (c : State) : (a : Action) → Decidable (KeepsClaims w c a)
  | .start t => inferInstanceAs (Decidable t.external)
  | .call i o => inferInstanceAs (Decidable (∀ p ∈ c.pool[i]?, p.task.host = some w →
      ∀ cmd ∈ nextCmd c i, keeps c.store o (courseOf p) cmd = true))
  | .halt _ | .drift _ => .isTrue trivial

/-! ## Pulls and settled calls -/

/-- A command of the worker pulls `j`. -/
def pulls (w : WorkerId) (t : Task) (c : Cmd) (r : Except Err c.Resp) (j : JobId) : ℕ :=
  match t with
  | .loop w' => if w' = w ∧ (c.pulled r).map Prod.snd = some j then 1 else 0
  | _ => 0

/-- A call of the worker on `j` settles. -/
def settles (w : WorkerId) (t : Task) (c : Cmd) (r : Except Err c.Resp) (j : JobId) : ℕ :=
  match t, c, r with
  | .processOne w' _ j', .onWorker _ (.settle _), .ok _ => if w' = w ∧ j' = j then 1 else 0
  | _, _, _ => 0

/-- The number of pulls of `j` by the worker. -/
def pulled (c : State) (w : WorkerId) (j : JobId) : ℕ :=
  counted course (fun t _ cmd r => pulls w t cmd r j) c.pool

/-- The number of calls of the worker on `j` that have settled. -/
def settled (c : State) (w : WorkerId) (j : JobId) : ℕ :=
  counted course (fun t _ cmd r => settles w t cmd r j) c.pool

/-- What is counted: pulls that still owe the removal of their entry, calls that have
removed it and not settled yet, and the two kinds of events. -/
inductive Share where
  | owing (j : JobId)
  | paid (j : JobId)
  | pulled (j : JobId)
  | settled (j : JobId)
  deriving DecidableEq

/-- What a call stands for. -/
def dues (j : JobId) : Course → Option Share
  | .fetching | .claimed _ | .marked _ | .active _ | .running | .thrown | .failing _
  | .clocked _ _ => some (.owing j)
  | .released | .spent => some (.paid j)
  | .leaked | .over | .holding => none

/-- What a process of the worker stands for. -/
def share (w : WorkerId) : Task → Phase × Course → Option Share
  | .loop w', (.pulled j, _) => if w' = w then some (.owing j) else none
  | .processOne w' _ j, (_, d) => if w' = w then dues j d else none
  | _, _ => none

/-- A pull of the worker that leads to no call: an empty id is not dispatched. -/
def strays (w : WorkerId) (t : Task) (c : Cmd) (r : Except Err c.Resp) (j : JobId) : ℕ :=
  if j = "" then pulls w t c r j else 0

/-- What an event counts for. -/
def counts (w : WorkerId) (t : Task) (c : Cmd) (r : Except Err c.Resp) : Share → ℕ
  | .owing j => strays w t c r j
  | .paid _ => 0
  | .pulled j => pulls w t c r j
  | .settled j => settles w t c r j

/-- Every entry is owed by a pull, and every pull is owing, paid or settled. -/
def Held (w : WorkerId) (s : World) (g : Share → ℕ) : Prop :=
  ∀ j, (s.redis.lists (.processing w)).count j ≤ g (.owing j) ∧
    g (.owing j) + g (.paid j) + g (.settled j) ≤ g (.pulled j)

/-- A call that has not leaked its entry and will not. -/
def Sure (d : Course) : Prop := d ≠ .leaked ∧ ∀ h ∈ d.failure, h.tried.isSome

/-- A pull loop that has a job is holding it. -/
def Carrying : Task → Phase × Course → Prop
  | .loop _, (.pulled _, d) => d = .holding
  | _, _ => True

/-- Claims as a discipline over the custody protocol and the course. -/
def claims (env : Env) (w : WorkerId) :
    Discipline (machine env) ((custody env).prod course) (Share → ℕ) where
  good _ := True
  val t l := holding (share w t l)
  emit t _ c r := counts w t c r
  loc t l _ := Aimed t l.1 ∧ (t.host = some w → Sure l.2) ∧ Carrying t l
  inv := Held w
  allow s _ t l c o := t.host = some w → keeps s o l.2 c = true
  post t r l := Concluded t r l.1 ∧ True

section Step

variable {env : Env} {s s' : World} {w : WorkerId} {n : ℕ} {j : JobId} {t : Task} {l l' : Phase}
  {d : Course} {c : Cmd} {o : Oracle} {r : Except Err c.Resp} {ts : List Task} {g : Share → ℕ}

/-- Only a pull of the worker adds to its processing list. -/
theorem count_of_effect (he : Effect env s t l c r s' l' ts) (ha : Aimed t l) (j : JobId) :
    (s'.redis.lists (.processing w)).count j ≤
      (s.redis.lists (.processing w)).count j + pulls w t c r j := by
  -- everything but a pull leaves the list as it is, or takes something off
  have same : s'.redis.lists (.processing w) = s.redis.lists (.processing w) →
      (s'.redis.lists (.processing w)).count j ≤
        (s.redis.lists (.processing w)).count j + pulls w t c r j := by
    intro h
    rw [h]
    exact Nat.le_add_right _ _
  by_cases hhost : t.host = some w
  · cases t with
    | loop w' =>
        cases hhost
        cases he with
        | @pull w x v c r hc hv hpulled =>
            have hone : pulls w (.loop w) c r j = if v = j then 1 else 0 := by
              simp [pulls, hpulled]
            rw [hone]
            by_cases hvj : v = j <;> simp [hvj]
        | still _ hf _ => exact same (hf.processing w)
        | draw ht _ _ _ | insert ht _ _ _ _ | insertFails ht _ _ _ | publishReady ht _ _ _
        | publishDelayed ht _ _ | cronFails ht _ | lift ht | readLifted ht | place ht =>
            exact ht.elim
        | _ => exact same rfl
    | processOne w' n j' =>
        cases hhost
        cases he with
        -- the call gives its job back, so the entry is gone
        | @pushBack w n j' h =>
            obtain ⟨x, hx⟩ := exists_targetList (h.queueName.getD (env.queue w))
              (h.priority.getD "normal")
            have herase : ((s.redis.lists (.processing w)).erase j').count j ≤
                (s.redis.lists (.processing w)).count j := List.erase_sublist.count_le j
            simpa [hx] using herase.trans (Nat.le_add_right _ _)
        | @ack w n j' | @brokenAck w n j' =>
            have herase : ((s.redis.lists (.processing w)).erase j').count j ≤
                (s.redis.lists (.processing w)).count j := List.erase_sublist.count_le j
            simpa using herase.trans (Nat.le_add_right _ _)
        | still _ hf _ => exact same (hf.processing w)
        | draw ht _ _ _ | insert ht _ _ _ _ | insertFails ht _ _ _ | publishReady ht _ _ _
        | publishDelayed ht _ _ | cronFails ht _ | lift ht | readLifted ht | place ht =>
            exact ht.elim
        | bury | brokenBury => exact same (by simp)
        | _ => exact same rfl
    | start w' | heartbeat w' =>
        cases he with
        | still _ hf _ => exact same (hf.processing w)
        | draw ht _ _ _ | insert ht _ _ _ _ | insertFails ht _ _ _ | publishReady ht _ _ _
        | publishDelayed ht _ _ | cronFails ht _ | lift ht | readLifted ht | place ht =>
            exact ht.elim
        | _ => exact same rfl
    | stop w' =>
        cases he with
        | still _ hf _ => exact same (hf.processing w)
        | draw ht _ _ _ | insert ht _ _ _ _ | insertFails ht _ _ _ | publishReady ht _ _ _
        | publishDelayed ht _ _ | cronFails ht _ | lift ht | readLifted ht | place ht =>
            exact ht.elim
        | dropHeartbeat => exact same (by simp [Write.apply])
        | _ => exact same rfl
    | _ => cases hhost
  -- of the others only a janitor touches the list, and it deletes it as a whole
  · by_cases hdrop : c = .write (.del (redisKeys.processing w))
    · subst hdrop
      cases he with
      | still hn _ _ => exact hn.elim
      | dropList => simp [Write.apply]
      | pull hc _ _ | pullNothing hc => rcases hc with hc | hc <;> cases hc
    · exact same (processing_of_effect he ha hhost hdrop)

/-- The commands that remove the entry of a call. -/
def drops : Cmd → Prop
  | .write (.lrem _ _ _) | .multi _ => True
  | _ => False

/-- They remove it. -/
theorem erase_of_effect (he : Effect env s (.processOne w n j) l c r s' l' ts) (hc : drops c) :
    s'.redis.lists (.processing w) = (s.redis.lists (.processing w)).erase j := by
  cases he with
  | still hn _ _ =>
      cases c with
      | write x => cases x <;> first | exact hc.elim | exact hn.elim
      | multi ws => exact hn.elim
      | _ => exact hc.elim
  | @pushBack w n j h =>
      obtain ⟨x, hx⟩ := exists_targetList (h.queueName.getD (env.queue w))
        (h.priority.getD "normal")
      simp [hx]
  | ack | brokenAck => simp
  | publishReady ht _ _ _ | publishDelayed ht _ _ => exact ht.elim
  | lift ht | place ht => exact ht.elim
  | _ => exact hc.elim

/-- A rejection leaves the entry of a call where it is, or the call leaks it. -/
theorem dues_error (hnext : d.afterError c ≠ .leaked) : dues j (d.afterError c) = dues j d := by
  revert hnext
  unfold Course.afterError
  split
  case h_8 => exact fun hnext => absurd rfl hnext
  all_goals exact fun _ => rfl

/-- How a call moves that does not leak: it settles, it stays as it is, or it removes
its entry. -/
theorem dues_next (hsure : Sure d) (hnext : course.next (.processOne w n j) d c r ≠ .leaked)
    (hc : ∀ w k, c ≠ .onWorker w (.settle k)) :
    dues j (course.next (.processOne w n j) d c r) = dues j d ∨
      dues j d = some (.owing j) ∧
        dues j (course.next (.processOne w n j) d c r) = some (.paid j) ∧ drops c := by
  cases r with
  | error e => exact Or.inl (dues_error hnext)
  | ok a =>
      change d.onCall c a ≠ .leaked at hnext
      change dues j (d.onCall c a) = _ ∨ _ ∧ dues j (d.onCall c a) = _ ∧ _
      revert hnext
      unfold Course.onCall
      split
      case h_1 h =>
          split
          · exact fun _ => Or.inl rfl
          · exact fun hnext => absurd rfl hnext
      case h_3 | h_9 | h_10 | h_11 => exact fun _ => Or.inr ⟨rfl, rfl, trivial⟩
      case h_12 => exact absurd rfl (hc _ _)
      all_goals exact fun _ => Or.inl rfl

/-- What the tasks a command starts stand for. -/
def startsWith (w : WorkerId) (ts : List Task) : Share → ℕ :=
  (ts.map fun t => holding (share w t (Phase.start t, course.start t))).sum

@[simp] theorem startsWith_nil : startsWith w [] = 0 := rfl

@[simp] theorem startsWith_loop (w' : WorkerId) : startsWith w [.loop w'] = 0 := by
  simp [startsWith, share, Phase.start]

theorem startsWith_call (w' : WorkerId) :
    startsWith w [.processOne w' n j] = if w' = w then holding (some (.owing j)) else 0 := by
  by_cases hw : w' = w <;> simp [startsWith, share, course, dues, hw]

/-- A process stands for no event. -/
theorem share_event (x : Phase × Course) :
    holding (share w t x) (.pulled j) = 0 ∧ holding (share w t x) (.settled j) = 0 := by
  obtain ⟨l, d⟩ := x
  have hdues : ∀ j', holding (dues j' d) (.pulled j) = 0 ∧ holding (dues j' d) (.settled j) = 0 := by
    intro j'
    cases d <;> simp [dues]
  cases t with
  | loop w' => cases l <;> by_cases hw : w' = w <;> simp [share, hw]
  | processOne w' n j' => by_cases hw : w' = w <;> simp [share, hw, hdues]
  | _ => simp [share]

/-- What a step must do to entries, shares and events. -/
theorem Held.step {x : Phase × Course} {b e st : Share → ℕ}
    (h : Held w s (holding (share w t x) + g))
    (hcount : ∀ j, (s'.redis.lists (.processing w)).count j ≤
      (s.redis.lists (.processing w)).count j - holding (share w t x) (.owing j) +
        (b (.owing j) + e (.owing j) + st (.owing j)))
    (hevents : ∀ j, b (.owing j) + e (.owing j) + st (.owing j) + (b (.paid j) + e (.paid j) +
      st (.paid j)) + (b (.settled j) + e (.settled j) + st (.settled j)) ≤
        e (.pulled j) + holding (share w t x) (.owing j) + holding (share w t x) (.paid j)) :
    Held w s' (b + (e + st + g)) := by
  intro j
  obtain ⟨hle, hsum⟩ := h j
  have hc := hcount j
  have he := hevents j
  obtain ⟨hnone, -⟩ := share_event (w := w) (t := t) (j := j) x
  simp only [Pi.add_apply] at hle hsum ⊢
  constructor
  · omega
  · omega

/-- A step of a process that stands for the same afterwards. -/
theorem Held.same {x x' : Phase × Course} (h : Held w s (holding (share w t x) + g))
    (hx : share w t x' = share w t x)
    (hcount : ∀ j, (s'.redis.lists (.processing w)).count j ≤
      (s.redis.lists (.processing w)).count j + pulls w t c r j)
    (hstray : ∀ j, strays w t c r j = pulls w t c r j)
    (hsettle : ∀ j, settles w t c r j = 0) (hts : startsWith w ts = 0) :
    Held w s' (holding (share w t x') + (counts w t c r + startsWith w ts + g)) := by
  rw [hts, hx]
  refine h.step (fun j => ?_) fun j => ?_
  · have hj := hcount j
    simp only [counts, hstray, Pi.zero_apply]
    omega
  · obtain ⟨-, hnone⟩ := share_event (w := w) (t := t) (j := j) x
    simp only [counts, hstray, hsettle, hnone, Pi.zero_apply]
    omega

/-- The tasks a command starts stand for nothing, unless it is a dispatch by the
worker. -/
theorem starts_of_effect (he : Effect env s t l c r s' l' ts)
    (hl : t = .loop w → ∀ j, l ≠ .pulled j) : startsWith w ts = 0 := by
  cases he with
  | @dispatch w' j =>
      rw [startsWith_call]
      by_cases hw : w' = w
      · subst hw
        exact absurd rfl (hl rfl j)
      · rw [if_neg hw]
  | loopAgain | launch => simp
  | _ => rfl

/-- A command that pulls nothing leaves no stray. -/
theorem strays_eq_zero (hpull : ∀ j, pulls w t c r j = 0) (j : JobId) : strays w t c r j = 0 := by
  rw [strays, hpull, ite_self]

/-- What a pull loop stands for is up to its custody phase. -/
theorem share_loop {w' : WorkerId} (d d' : Course) :
    share w (.loop w') (l, d) = share w (.loop w') (l, d') := by
  cases l <;> rfl

/-- **Step lemma.**  The pull loop of the worker. -/
theorem Held.loop {d d' : Course} (h : Held w s (holding (share w (.loop w) (l, d)) + g))
    {a : c.Resp} (he : Effect env s (.loop w) l c (.ok a) s' l' ts) (ha : Aimed (.loop w) l) :
    Held w s' (holding (share w (.loop w) (l', d')) +
      (counts w (.loop w) c (.ok a) + startsWith w ts + g)) := by
  have hcount := count_of_effect (w := w) he ha
  have hsettle : ∀ j, settles w (.loop w) c (.ok a) j = 0 := by
    intro j
    cases c <;> rfl
  -- neither a pull nor the start of a call
  have quiet : share w (.loop w) (l', d') = share w (.loop w) (l, d) →
      c.pulled (.ok a) = none → startsWith w ts = 0 →
      Held w s' (holding (share w (.loop w) (l', d')) +
        (counts w (.loop w) c (.ok a) + startsWith w ts + g)) := by
    intro hx hpulled hts
    have hpull : ∀ j, pulls w (.loop w) c (.ok a) j = 0 := by
      intro j
      simp [pulls, hpulled]
    exact h.same hx hcount (fun j => (strays_eq_zero hpull j).trans (hpull j).symm) hsettle hts
  cases he with
  | @pull w x v c r hc hv hpulled =>
      have hone : ∀ j, pulls w (.loop w) c (.ok a) j = if v = j then 1 else 0 := by
        intro j
        simp [pulls, hpulled]
      by_cases hempty : v = ""
      · -- an empty id stays where it is
        subst hempty
        refine h.same rfl hcount (fun j => ?_) hsettle rfl
        rw [strays, hone]
        by_cases hj : j = ""
        · rw [if_pos hj]
        · rw [if_neg hj, if_neg (Ne.symm hj)]
      · have hstray : ∀ j, strays w (.loop w) c (.ok a) j = 0 := by
          intro j
          rw [strays, hone]
          split
          · rename_i hj
            rw [if_neg (fun hv => hempty (hv.trans hj))]
          · rfl
        rw [truthy_some hempty]
        have hnone : share w (.loop w) (.idle, d) = none := rfl
        have hsome : share w (.loop w) ((some v).elim .idle .pulled, d') = some (.owing v) :=
          if_pos rfl
        rw [hsome]
        refine h.step (fun j => ?_) fun j => ?_
        · have hj := hcount j
          rw [hone] at hj
          simpa [counts, hstray, hnone] using hj
        · simp [counts, hstray, hnone, hone, hsettle]
  -- the claim passes from the loop to the call
  | @dispatch w j =>
      have hpull : ∀ j', pulls w (.loop w) (.onWorker w (.dispatch j))
          (.ok (s.workers w).calls) j' = 0 := by
        intro j'
        simp [pulls, Cmd.pulled]
      have hstray := strays_eq_zero hpull
      have hsome : share w (.loop w) (.pulled j, d) = some (.owing j) := if_pos rfl
      have hnone : share w (.loop w) (.idle, d') = none := rfl
      rw [hnone, startsWith_call, if_pos rfl]
      refine h.step (fun j' => ?_) fun j' => ?_
      · have hj := hcount j'
        rw [hpull] at hj
        refine hj.trans ?_
        rw [hsome]
        omega
      · simp [counts, hsome, hpull, hsettle, hstray]
  | still hn _ _ => exact quiet (share_loop _ _) (by cases c <;> first | rfl | exact hn.elim) rfl
  | pullNothing hc =>
      have hnone : ∀ d, share w (.loop w) (.idle, d) = none := fun _ => rfl
      have hstray : ∀ j, strays w (.loop w) c (.ok a) j ≤ pulls w (.loop w) c (.ok a) j := by
        intro j
        unfold strays
        split
        · exact le_rfl
        · exact Nat.zero_le _
      refine h.step (fun j => ?_) fun j => ?_
      · simp only [hnone, holding_none, Pi.zero_apply]
        omega
      · have hj := hstray j
        simp only [counts, hnone, hsettle, holding_none, startsWith_nil, Pi.zero_apply]
        omega
  | loopAgain | loopExit => exact quiet rfl rfl (by simp)
  | inert _ _ _ _ _ _ _ => exact quiet (share_loop _ _) rfl rfl
  | draw ht _ _ _ | insert ht _ _ _ _ | publishReady ht _ _ _
  | publishDelayed ht _ _ | lift ht | readLifted ht | place ht =>
      exact ht.elim

/-- **Step lemma.**  A call of the worker. -/
theorem Held.call (h : Held w s (holding (share w (.processOne w n j) (l, d)) + g))
    (he : Effect env s (.processOne w n j) l c r s' l' ts) (ha : Aimed (.processOne w n j) l)
    (hp : d.permits j c) (hsure : Sure d)
    (hsure' : Sure (course.next (.processOne w n j) d c r)) :
    Held w s' (holding (share w (.processOne w n j) (l', course.next (.processOne w n j) d c r)) +
      (counts w (.processOne w n j) c r + startsWith w ts + g)) := by
  have hcount := count_of_effect (w := w) he ha
  have hpull : ∀ j', pulls w (.processOne w n j) c r j' = 0 := fun _ => rfl
  have hts : startsWith w ts = 0 := starts_of_effect he (by simp)
  have hshare : ∀ l d, share w (.processOne w n j) (l, d) = dues j d := fun _ _ => if_pos rfl
  have hstray := strays_eq_zero hpull
  by_cases hc : ∃ w' k, c = .onWorker w' (.settle k)
  · -- the call settles after it has removed its entry
    obtain ⟨w', k, rfl⟩ := hc
    obtain ⟨a, rfl⟩ : ∃ a, r = .ok a := by
      cases he <;> exact ⟨_, rfl⟩
    -- a call that settles without a leak has paid
    have hpaid : dues j d = some (.paid j) := by
      cases d with
      | released | spent => rfl
      | leaked => exact absurd rfl hsure.1
      | clocked hash now =>
          have htried := hsure.2 hash rfl
          rw [show hash.tried = none from hp] at htried
          cases htried
      | _ => exact hp.elim
    have hover : dues j (course.next (.processOne w n j) d (.onWorker w' (.settle k)) (.ok a)) =
        none := by
      cases d <;> rfl
    have hone : ∀ j', settles w (.processOne w n j) (.onWorker w' (.settle k)) (.ok a) j' =
        if j = j' then 1 else 0 := by
      intro j'
      simp [settles]
    rw [hts, hshare, hover]
    refine h.step (fun j' => ?_) fun j' => ?_
    · have hj := hcount j'
      rw [hpull] at hj
      rw [hshare, hpaid]
      simp only [counts, hstray, holding_some, Pi.zero_apply, reduceCtorEq, if_false]
      omega
    · rw [hshare, hpaid]
      simp [counts, hstray, hone]
  · have hsettle : ∀ j', settles w (.processOne w n j) c r j' = 0 := by
      intro j'
      unfold settles
      split
      · exact absurd ⟨_, _, rfl⟩ hc
      · rfl
    rcases dues_next hsure hsure'.1 (fun w' k hk => hc ⟨w', k, hk⟩) with hd | ⟨hd, hd', hdrop⟩
    · refine h.same ?_ hcount (fun j' => (hstray j').trans (hpull j').symm) hsettle hts
      rw [hshare, hshare, hd]
    · -- the call removes its entry
      rw [hts, hshare, hd']
      refine h.step (fun j' => ?_) fun j' => ?_
      · rw [erase_of_effect he hdrop, hshare, hd]
        by_cases hj : j = j'
        · subst hj
          simp
        · rw [List.count_erase_of_ne (Ne.symm hj)]
          simp [hj]
      · rw [hshare, hd]
        simp [counts, hstray, hsettle, hpull]

/-- A phase without a failure. -/
theorem sure_of_failure (hd : d ≠ .leaked) (hf : d.failure = none) : Sure d := by
  refine ⟨hd, fun h hh => ?_⟩
  rw [hf] at hh
  cases hh

/-- A rejection that the code allows for leaks nothing. -/
theorem sure_error (hsure : Sure d) (ho : o.takes c = false) (hk : keeps s o d c = true) :
    Sure (d.afterError c) := by
  unfold Course.afterError
  split
  case h_1 => exact hsure
  case h_8 hpub hact hrun hrel hspent hover hhold =>
      exfalso
      cases d <;> cases c <;> simp_all [keeps, Oracle.takes, Cmd.unreadable, Sure]
  all_goals exact sure_of_failure (by simp) rfl

/-- **Step lemma.**  A command that keeps the claim leaks nothing. -/
theorem sure_next (hsure : Sure d) (hp : Permits env (.processOne w n j) l c)
    (hd : d.permits j c) (hk : keeps s o d c = true)
    (hex : World.exec env s (.processOne w n j) c o = some (r, s')) :
    Sure (course.next (.processOne w n j) d c r) := by
  rcases (exec_cases hex).2 with ⟨err, ho, -, rfl, rfl⟩ | ⟨-, ha⟩
  · exact sure_error hsure ho hk
  · cases r with
    | error e =>
        cases effect_of_answer hp ha with
        | handler =>
            obtain ⟨h, rfl, -⟩ := hd
            exact sure_of_failure (by simp [course, Course.afterError]) rfl
        | insertFails ht _ _ _ | cronFails ht _ => exact ht.elim
    | ok a =>
        change Sure (d.onCall c a)
        unfold Course.onCall
        split
        case h_1 k h =>
            cases ha
            have hname : (truthy (s.redis.jobs k).jobName).isSome = true := (Bool.and_eq_true_iff.mp hk).2
            rw [if_pos hname]
            exact sure_of_failure (by simp) rfl
        case h_6 k h | h_7 k h =>
            cases ha
            refine ⟨by simp, ?_⟩
            rintro _ ⟨⟩
            exact (Bool.and_eq_true_iff.mp hk).2
        case h_8 h now => exact ⟨by simp, hsure.2⟩
        case h_13 => exact hsure
        all_goals exact sure_of_failure (by simp) rfl

/-- A pull loop that pulls a job is holding it. -/
theorem carrying_next (h : Carrying t (l, d)) (hp : course.permits t d c) :
    Carrying t (Phase.next t l c r, course.next t d c r) := by
  cases t with
  | loop w =>
      cases r with
      | error e => trivial
      | ok a =>
          change Carrying (.loop w) (Phase.onLoop l c a, Course.onLoop c a)
          have elim : ∀ r : Option String, Carrying (.loop w)
              ((truthy r).elim .idle .pulled, (truthy r).elim .over fun _ => .holding) := by
            intro r
            cases truthy r with
            | none => trivial
            | some j => rfl
          unfold Phase.onLoop
          split
          case h_1 | h_2 => exact elim _
          case h_6 hdisp _ _ =>
              cases l with
              | pulled j =>
                  obtain ⟨j', rfl⟩ := hp.2 h
                  exact absurd HEq.rfl (hdisp _ _ _ _ rfl rfl)
              | _ => trivial
          all_goals trivial
  | _ => trivial

/-- A pull loop leaks nothing. -/
theorem sure_loop {w' : WorkerId} : Sure (course.next (.loop w') d c r) := by
  have elim : ∀ r : Option String, Sure ((truthy r).elim .over fun _ => .holding) := by
    intro r
    cases truthy r <;> exact sure_of_failure (by simp) rfl
  cases r with
  | error e => exact sure_of_failure (by simp [course]) rfl
  | ok a =>
      change Sure (Course.onLoop c a)
      unfold Course.onLoop
      split
      case h_1 | h_2 => exact elim _
      case h_3 => exact sure_of_failure (by simp) rfl

theorem sure_start (t : Task) : Sure (course.start t) := by
  cases t <;> exact sure_of_failure (by simp [course]) rfl

/-- The pull loops and calls of the worker. -/
def Mine (w : WorkerId) : Task → Prop
  | .loop w' | .processOne w' _ _ => w' = w
  | _ => False

/-- The others stand for nothing and count for nothing. -/
theorem quiet_of_not_mine (ht : ¬ Mine w t) :
    (∀ x, share w t x = none) ∧ (∀ j, pulls w t c r j = 0) ∧ ∀ j, settles w t c r j = 0 := by
  cases t with
  | loop w' =>
      have hw : w' ≠ w := ht
      refine ⟨?_, fun j => ?_, fun j => ?_⟩
      · rintro ⟨l, d⟩
        cases l <;> simp [share, hw]
      · simp [pulls, hw]
      · cases c <;> rfl
  | processOne w' n j =>
      have hw : w' ≠ w := ht
      refine ⟨fun ⟨l, d⟩ => ?_, fun _ => rfl, fun j => ?_⟩
      · simp [share, hw]
      · unfold settles
        split <;> simp_all
  | _ =>
      refine ⟨fun _ => rfl, fun _ => rfl, fun j => ?_⟩
      cases c <;> rfl

/-- A pull loop that is holding a job issues no command that can be rejected. -/
theorem not_carrying (hd : course.permits (.loop w) d c) (hcarry : Carrying (.loop w) (l, d))
    (hf : c.faultable = true) : ∀ j, l ≠ .pulled j := by
  rintro j rfl
  obtain ⟨j', rfl⟩ := hd.2 hcarry
  cases hf

/-- What a rejection leaves behind. -/
theorem Held.rejected (h : Held w s (holding (share w t (l, d)) + g)) {e : Err}
    (hsure : t.host = some w → Sure (course.next t d c (.error e)))
    (hloop : t = .loop w → ∀ j, l ≠ .pulled j) :
    Held w s (holding (share w t (l.afterError t c, course.next t d c (.error e))) +
      (counts w t c (.error e) + g)) := by
  have hcount : ∀ j, (s.redis.lists (.processing w)).count j ≤
      (s.redis.lists (.processing w)).count j + pulls w t c (.error e) j :=
    fun j => Nat.le_add_right _ _
  have hpull : ∀ j, pulls w t c (.error e) j = 0 := by
    intro j
    cases t <;> cases c <;> simp [pulls, Cmd.pulled]
  have hsettle : ∀ j, settles w t c (.error e) j = 0 := by
    intro j
    unfold settles
    split
    · rename_i h
      cases h
    · rfl
  have same : share w t (l.afterError t c, course.next t d c (.error e)) = share w t (l, d) →
      Held w s (holding (share w t (l.afterError t c, course.next t d c (.error e))) +
        (counts w t c (.error e) + g)) := by
    intro hx
    have hsame := h.same hx hcount (fun j => (strays_eq_zero hpull j).trans (hpull j).symm)
      hsettle startsWith_nil
    rwa [startsWith_nil, add_zero] at hsame
  by_cases hmine : Mine w t
  · cases t with
    | loop w' =>
        obtain rfl : w' = w := hmine
        refine same ?_
        cases l with
        | pulled j => exact absurd rfl (hloop rfl j)
        | _ => rfl
    | processOne w' n j =>
        obtain rfl : w' = w := hmine
        have hdues := dues_error (j := j) (hsure rfl).1
        refine same ?_
        change share w' (.processOne w' n j) (_, d.afterError c) = _
        simp only [share, if_true]
        exact hdues
    | _ => exact hmine.elim
  · obtain ⟨hshare, -, -⟩ := quiet_of_not_mine (c := c) (r := .error e) hmine
    exact same ((hshare _).trans (hshare _).symm)

/-- A pull is answered. -/
theorem ok_of_pull {k k' : Key} (hc : c = .rpoplpush k k' ∨ c = .blmove k k')
    (ha : World.answer env s o c = some (r, s')) : ∃ a, r = .ok a := by
  rcases hc with rfl | rfl <;> exact ⟨_, (congrArg Prod.fst (Option.some.inj ha)).symm⟩

/-- Commands of a loop are answered. -/
theorem ok_of_loop (hp : Permits env (.loop w) l c)
    (ha : World.answer env s o c = some (r, s')) : ∃ a, r = .ok a := by
  have he := effect_of_answer hp ha
  generalize Phase.next (.loop w) l c r = l', forks (.loop w) c r = ts at he
  cases he with
  | pull hc _ _ | pullNothing hc => exact ok_of_pull hc ha
  | insertFails ht _ _ _ | cronFails ht _ => exact ht.elim
  | _ => exact ⟨_, rfl⟩

/-- **Step lemma.**  Every answer keeps entries, shares and events in order. -/
theorem Held.answer (h : Held w s (holding (share w t (l, d)) + g)) (ha : Aimed t l)
    (hp : Permits env t l c) (hd : course.permits t d c) (hsure : t.host = some w → Sure d)
    (hsure' : t.host = some w → Sure (course.next t d c r))
    (hans : World.answer env s o c = some (r, s')) :
    Held w s' (holding (share w t (Phase.next t l c r, course.next t d c r)) +
      (counts w t c r + startsWith w (forks t c r) + g)) := by
  have he := effect_of_answer hp hans
  by_cases hmine : Mine w t
  · cases t with
    | loop w' =>
        obtain rfl : w' = w := hmine
        obtain ⟨a, rfl⟩ := ok_of_loop hp hans
        exact h.loop he ha
    | processOne w' n j =>
        obtain rfl : w' = w := hmine
        exact h.call he ha hd (hsure rfl) (hsure' rfl)
    | _ => exact hmine.elim
  · obtain ⟨hshare, hpull, hsettle⟩ := quiet_of_not_mine (c := c) (r := r) hmine
    refine h.same ((hshare _).trans (hshare _).symm) (count_of_effect he ha)
      (fun j => (strays_eq_zero hpull j).trans (hpull j).symm) hsettle (starts_of_effect he ?_)
    rintro rfl
    exact absurd rfl hmine

/-- A rejected command starts no task. -/
theorem forks_error (e : Err) : forks t c (.error e) = [] := by
  cases c with
  | onWorker w op => cases op <;> rfl
  | _ => rfl

/-- **Claims are a sound discipline while no call leaks its entry.** -/
theorem claims_sound : (claims env w).Sound (KeepsClaims w) where
  follows t _ := follows_prod (custody_follows t) (course_follows env t)
  call s t l c o r s' F h := by
    obtain ⟨hp, hd⟩ := h.permits
    have hsure : t.host = some w → Sure l.2 := h.loc.2.1
    have hsure' : t.host = some w → Sure (course.next t l.2 c r) := by
      intro hhost
      cases t with
      | processOne w' n j =>
          cases hhost
          exact sure_next (hsure rfl) hp hd (h.allow rfl) h.exec
      | loop w' => exact sure_loop
      | _ => exact sure_of_failure (by simp [course]) rfl
    have hspawn : ∀ t' : Task, Aimed t' (Phase.start t') ∧
        (t'.host = some w → Sure (course.start t')) ∧ Carrying t' (Phase.start t', course.start t') :=
      fun t' => ⟨aimed_start t', fun _ => sure_start t', by cases t' <;> trivial⟩
    have hcarry : Carrying t (Phase.next t l.1 c r, course.next t l.2 c r) :=
      carrying_next h.loc.2.2 hd
    rcases (exec_cases h.exec).2 with ⟨err, -, hf, rfl, rfl⟩ | ⟨-, ha⟩
    · refine ⟨?_, ⟨aimed_error h.loc.1 c, hsure', hcarry⟩, fun t' _ => ⟨trivial, hspawn t'⟩⟩
      have hnone : (claims env w).starts ((machine env).forks t c (.error err)) = 0 := by
        change startsWith w (forks t c (.error err)) = 0
        rw [forks_error, startsWith_nil]
      rw [hnone, add_zero]
      refine Held.rejected h.inv hsure' ?_
      rintro rfl
      exact not_carrying hd h.loc.2.2 hf
    · exact ⟨Held.answer h.inv h.loc.1 hp hd hsure hsure' ha,
        ⟨aimed_of_effect (effect_of_answer hp ha) h.loc.1, hsure', hcarry⟩,
        fun t' _ => ⟨trivial, hspawn t'⟩⟩
  stable _ _ _ _ _ _ _ _ _ _ _ _ _ _ hk := hk
  start c t hok hc := by
    refine ⟨trivial, ?_, aimed_start t, fun _ => sure_start t, by cases t <;> trivial⟩
    have hnone : (claims env w).val t (((custody env).prod course).start t) = 0 := by
      change holding (share w t (Phase.start t, course.start t)) = 0
      cases t <;> first | rfl | exact hok.elim
    rw [hnone, zero_add]
    exact hc.1
  allows c i o p cmd k hok hc hp hprog := by
    intro hhost
    rw [Protocol.prod_phase]
    exact hok p hp hhost cmd (by simp [nextCmd, hp, hprog])
  drift c m s' _ hc hm := by
    refine ⟨?_, fun _ _ _ hk => hk⟩
    cases m <;> cases hm <;> exact hc.1

end Step

section Result

variable {env : Env} {c : State} {w : WorkerId}

/-- **A worker holds no claim it is not working on.**  From any stores in which the
processing list of `w` is empty, in every run in which no call of `w` leaks its entry,
whatever else fails: for every job id, the entries of the processing list are at most the
pulls whose call has not settled. -/
theorem entries_le_unsettled (hc : (machine env).Reach (KeepsClaims w)
    (fun c => c.pool = [] ∧ c.store.redis.lists (redisKeys.processing w) = []) c) (j : JobId) :
    (c.store.redis.lists (redisKeys.processing w)).count j + settled c w j ≤ pulled c w j := by
  have hinit : ∀ c : State, c.pool = [] ∧ c.store.redis.lists (redisKeys.processing w) = [] →
      (claims env w).PoolOk c := by
    rintro c ⟨hpool, hlist⟩
    rw [Discipline.PoolOk, hpool]
    exact ⟨fun j => by simp [hlist, Discipline.total], by simp⟩
  obtain ⟨hheld, -⟩ := claims_sound.reach hinit hc
  obtain ⟨hle, hsum⟩ := hheld j
  have hpulled : (claims env w).total c.pool (.pulled j) = pulled c w j := by
    rw [(claims env w).total_eq_counted (fun t _ cmd r => pulls w t cmd r j)
      (fun t l => (share_event l).1) (fun _ _ _ _ => rfl)]
    exact counted_prod_snd (fun t _ cmd r => pulls w t cmd r j) c.pool
  have hsettled : (claims env w).total c.pool (.settled j) = settled c w j := by
    rw [(claims env w).total_eq_counted (fun t _ cmd r => settles w t cmd r j)
      (fun t l => (share_event l).2) (fun _ _ _ _ => rfl)]
    exact counted_prod_snd (fun t _ cmd r => settles w t cmd r j) c.pool
  rw [hpulled, hsettled] at hsum
  change (c.store.redis.lists (.processing w)).count j + _ ≤ _
  omega

/-- Worker `w1` pulls the job `j1`, whose handler throws. -/
def oneFailure : List Action :=
  [.start (.enqueue "echo" (some .null) {}), .call 0 (.fresh j1)] ++ goes 0 5 ++
    [.start (.start "w1")] ++ goes 1 8 ++ goes 2 5 ++ goes 3 5

/-- The theorem on a run in which a call has failed over and settled. -/
theorem entries_le_unsettled_after_failure :
    ∃ c, (machine sample).Reach (KeepsClaims "w1") (fun c => c.pool = [] ∧
        c.store.redis.lists (redisKeys.processing "w1") = []) c ∧
      settled c "w1" j1.text = 1 ∧
      (c.store.redis.lists (redisKeys.processing "w1")).count j1.text + settled c "w1" j1.text ≤
        pulled c "w1" j1.text := by
  obtain ⟨c, hc, ht⟩ := Machine.exists_reach (machine sample) (KeepsClaims "w1")
    (fun c => c.pool = [] ∧ c.store.redis.lists (redisKeys.processing "w1") = [])
    (c := blank) ⟨rfl, rfl⟩ (oneFailure ++ goes 3 1 ++ throws 3 ++ goes 3 7)
    (fun c => decide (settled c "w1" j1.text = 1)) (by decide +kernel)
  exact ⟨c, hc, of_decide_eq_true ht, entries_le_unsettled hc j1.text⟩

/-- A ready list with the id of a job that has no hash. -/
def haunted : State where
  store :=
    { redis := { lists := Function.update (fun _ => []) (redisKeys.queue "default") [j1.text] } }
  pool := []

/-- The call of a job without a hash returns, and its entry stays, although nothing has
failed; and so does the entry of a job whose `markJobActive` is rejected. -/
theorem entry_left_behind :
    (∃ c, (machine sample).Reach Reliable (· = haunted) c ∧ pulled c "w1" j1.text = 1 ∧
      settled c "w1" j1.text = 1 ∧ c.store.redis.lists (redisKeys.processing "w1") = [j1.text]) ∧
    ∃ c, (machine sample).Reach Anything Blank c ∧ pulled c "w1" j1.text = 1 ∧
      settled c "w1" j1.text = 1 ∧ c.store.redis.lists (redisKeys.processing "w1") = [j1.text] := by
  constructor
  · obtain ⟨c, hc, ht⟩ := Machine.exists_reach (machine sample) Reliable (· = haunted) rfl
      ([.start (.start "w1")] ++ goes 0 8 ++ goes 1 5 ++ goes 2 2)
      (fun c => decide (pulled c "w1" j1.text = 1 ∧ settled c "w1" j1.text = 1 ∧
        c.store.redis.lists (redisKeys.processing "w1") = [j1.text])) (by decide +kernel)
    exact ⟨c, hc, of_decide_eq_true ht⟩
  · obtain ⟨c, hc, ht⟩ := Machine.exists_reach (machine sample) Anything Blank blank_blank
      ([.start (.enqueue "echo" (some .null) {}), .call 0 (.fresh j1)] ++ goes 0 5 ++
        [.start (.start "w1")] ++ goes 1 8 ++ goes 2 5 ++ goes 3 1 ++ [.call 3 .fault] ++ goes 3 1)
      (fun c => decide (pulled c "w1" j1.text = 1 ∧ settled c "w1" j1.text = 1 ∧
        c.store.redis.lists (redisKeys.processing "w1") = [j1.text])) (by decide +kernel)
    exact ⟨c, hc, of_decide_eq_true ht⟩

end Result

end Claims

end NexusQueue
