/-
# What a recovery restores

A dead worker leaves a processing list `L` behind.  Any number of janitors may find
it: each reads the list, pushes the entries one by one and only then deletes the
list, and each may be cut off at any point.  There is no claim step, so several of
them may push the same entry.

Once one of them has deleted the list, every entry has been pushed at least once to
its ready list, and at most once for each read that found the list.

The runs start from stores with any contents.
-/
import NexusQueue.Tokens
import NexusQueue.Conduct
import NexusQueue.Transition

namespace NexusQueue

namespace Recovery

/-- The ready list a janitor pushes an orphan to: the list of its queue and
priority. -/
def orphanHome (s₀ : World) (j : JobId) : Key :=
  targetList ((s₀.redis.jobs (redisKeys.job j)).queueName.getD "default")
    ((s₀.redis.jobs (redisKeys.job j)).priority.getD "normal")

/-- How often a command of a janitor, at work on worker `w`, pushes `j` to the list
`k`. -/
def restores (w : WorkerId) (k : Key) (j : JobId) (l : Phase) (c : Cmd) : ℕ :=
  match l, c with
  | .routing w' _ _ _, .write (.lpush k' j') => if w' = w ∧ k' = k ∧ j' = j then 1 else 0
  | _, _ => 0

/-- The command reads the processing list of `w` and finds entries. -/
def finds (w : WorkerId) : (c : Cmd) → Except Err c.Resp → ℕ
  | .lrange (.processing w') _ _, .ok (_ :: _) => if w' = w then 1 else 0
  | _, _ => 0

/-- The command deletes the processing list of `w`. -/
def deletes (w : WorkerId) : Cmd → ℕ
  | .write (.del (.processing w')) => if w' = w then 1 else 0
  | _ => 0

/-- The number of pushes of `j` to the list `k` by janitors at work on `w`. -/
def restorations (env : Env) (c : State) (w : WorkerId) (k : Key) (j : JobId) : ℕ :=
  counted (custody env) (fun _ l cmd r => if r.isOk then restores w k j l cmd else 0) c.pool

/-- The number of reads that found entries in the processing list of `w`. -/
def findings (env : Env) (c : State) (w : WorkerId) : ℕ :=
  counted (custody env) (fun _ _ cmd r => finds w cmd r) c.pool

/-- The number of times the processing list of `w` has been deleted. -/
def deletions (env : Env) (c : State) (w : WorkerId) : ℕ :=
  counted (custody env) (fun _ _ cmd r => if r.isOk then deletes w cmd else 0) c.pool

/-- What is counted of a recovery: janitors with a list of orphans to push, the
orphans on these lists, pushes, reads and deletions. -/
inductive Mark where
  | at (todo : List JobId)
  | todo (jobId : JobId)
  | pushed (jobId : JobId)
  | found
  | deleted
  deriving DecidableEq

/-- The orphans of `w` a task still has to push. -/
def remaining (w : WorkerId) : Task → Phase → Option (List JobId)
  | .janitor, .recovering w' todo => if w' = w then some todo else none
  | .janitor, .routing w' _ j todo => if w' = w then some (j :: todo) else none
  | .janitor, .restored w' _ todo => if w' = w then some todo else none
  | _, _ => none

/-- What a task with orphans to push counts for. -/
def burden (x : Option (List JobId)) : Mark → ℕ
  | .at todo => if x = some todo then 1 else 0
  | .todo j => (x.getD []).count j
  | _ => 0

/-- What a command counts for. -/
def counts (s₀ : World) (w : WorkerId) (l : Phase) (c : Cmd) (r : Except Err c.Resp) : Mark → ℕ
  | .pushed j => if r.isOk then restores w (orphanHome s₀ j) j l c else 0
  | .found => finds w c r
  | .deleted => if r.isOk then deletes w c else 0
  | _ => 0

/-- The orphans are accounted for. -/
structure Accounted (s₀ : World) (w : WorkerId) (s : World) (g : Mark → ℕ) : Prop where
  down : s.down w = true
  known : ∀ j ∈ s₀.redis.lists (.processing w), j ∈ s.ids ∧
    (s.redis.jobs (.job j)).SameIdentity (s₀.redis.jobs (.job j))
  list : s.redis.lists (.processing w) = s₀.redis.lists (.processing w) ∨
    s.redis.lists (.processing w) = [] ∧ 0 < g .deleted
  upper : ∀ j, g (.pushed j) + g (.todo j) ≤ (s₀.redis.lists (.processing w)).count j * g .found
  lower : ∀ todo, 0 < g (.at todo) →
    ∀ j, (s₀.redis.lists (.processing w)).count j ≤ g (.pushed j) + todo.count j
  done : 0 < g .deleted → ∀ j, (s₀.redis.lists (.processing w)).count j ≤ g (.pushed j)

/-- A janitor at work on `w` has orphans of `w`, and knows where the next one
belongs; a draft is none of them. -/
def aims (s₀ : World) (w : WorkerId) : Task → Phase → Prop
  | .janitor, .recovering w' todo => w' = w → todo ⊆ s₀.redis.lists (.processing w)
  | .janitor, .routing w' k j todo =>
      w' = w → j :: todo ⊆ s₀.redis.lists (.processing w) ∧ k = orphanHome s₀ j
  | .janitor, .restored w' _ todo => w' = w → todo ⊆ s₀.redis.lists (.processing w)
  | _, .drawn id | _, .rowed id => id ∉ s₀.redis.lists (.processing w)
  | _, _ => True

/-- Recovery as a discipline over the custody protocol. -/
def recovery (env : Env) (s₀ : World) (w : WorkerId) :
    Discipline (machine env) (custody env) (Mark → ℕ) where
  good _ := True
  val t l := burden (remaining w t l)
  emit _ l c r := counts s₀ w l c r
  loc t l _ := Aimed t l ∧ aims s₀ w t l
  inv := Accounted s₀ w
  allow _ _ _ _ _ _ := True
  post := Concluded

section Step

variable {env : Env} {s₀ s s' : World} {w : WorkerId} {t : Task} {l l' : Phase} {c : Cmd}
  {r : Except Err c.Resp} {ts : List Task} {g : Mark → ℕ}

@[simp] theorem burden_pushed (x : Option (List JobId)) (j : JobId) : burden x (.pushed j) = 0 :=
  rfl

@[simp] theorem burden_found (x : Option (List JobId)) : burden x .found = 0 := rfl

@[simp] theorem burden_deleted (x : Option (List JobId)) : burden x .deleted = 0 := rfl

theorem burden_todo (x : Option (List JobId)) (j : JobId) :
    burden x (.todo j) = (x.getD []).count j := rfl

theorem burden_at (x : Option (List JobId)) (todo : List JobId) :
    burden x (.at todo) = if x = some todo then 1 else 0 := rfl

/-- A task that has nothing to push has no burden. -/
theorem burden_none : burden none = 0 := by
  funext m
  cases m <;> simp [burden]

/-- Only an `LPUSH` pushes. -/
theorem restores_of_cmd {k : Key} {j : JobId} (hc : ∀ k j, c ≠ .write (.lpush k j)) :
    restores w k j l c = 0 := by
  unfold restores
  split
  · exact absurd rfl (hc _ _)
  · rfl

/-- Only a janitor with a route pushes. -/
theorem restores_of_phase {k : Key} {j : JobId} (hl : ∀ w' k j todo, l ≠ .routing w' k j todo) :
    restores w k j l c = 0 := by
  unfold restores
  split
  · exact absurd rfl (hl _ _ _ _)
  · rfl

/-- Only the `DEL` of the list deletes it. -/
theorem deletes_eq_zero (hc : c ≠ .write (.del (redisKeys.processing w))) : deletes w c = 0 := by
  unfold deletes
  split
  · rename_i w'
    refine if_neg ?_
    rintro rfl
    exact hc rfl
  · rfl

/-- The orphans keep their records, and their uuids are not drawn again. -/
theorem known_of_effect (he : Effect env s t l c r s' l' ts) (ha : aims s₀ w t l)
    (h : ∀ j ∈ s₀.redis.lists (.processing w), j ∈ s.ids ∧
      (s.redis.jobs (.job j)).SameIdentity (s₀.redis.jobs (.job j))) :
    ∀ j ∈ s₀.redis.lists (.processing w), j ∈ s'.ids ∧
      (s'.redis.jobs (.job j)).SameIdentity (s₀.redis.jobs (.job j)) := by
  intro j hj
  have hne : l ≠ .rowed j := by
    rintro rfl
    cases t <;> exact ha hj
  exact ⟨ids_of_effect he (h j hj).1, (identity_of_effect he hne).trans (h j hj).2⟩

/-- The processing list of a dead worker is left alone until a janitor deletes it. -/
theorem list_of_effect (he : Effect env s t l c r s' l' ts) (ha : Aimed t l) (hup : t.up s)
    (hdown : s.down w = true) (hdrop : c ≠ .write (.del (redisKeys.processing w))) :
    s'.redis.lists (.processing w) = s.redis.lists (.processing w) := by
  refine processing_of_effect he ha (fun hhost => ?_) hdrop
  rw [hup.not_down hhost] at hdown
  cases hdown

/-- A janitor reads the list: what it finds it has to push. -/
theorem Accounted.read {L : List String} (hL : s.redis.lists (.processing w) = L)
    {F : ℕ} (hF : L ≠ [] → F = 1) (h : Accounted s₀ w s g) {g' : Mark → ℕ}
    (hpushed : ∀ j, g' (.pushed j) = g (.pushed j)) (hdeleted : g' .deleted = g .deleted)
    (hfound : g' .found = F + g .found) (htodo : ∀ j, g' (.todo j) = L.count j + g (.todo j))
    (hat : ∀ todo, 0 < g' (.at todo) → todo = L ∨ 0 < g (.at todo)) : Accounted s₀ w s g' where
  down := h.down
  known := h.known
  list := by
    rw [hdeleted]
    exact h.list
  upper j := by
    have hupper := h.upper j
    rw [hpushed, htodo, hfound, Nat.mul_add]
    by_cases hempty : L = []
    · rw [hempty, List.count_nil]
      omega
    · have hsame : L = s₀.redis.lists (.processing w) := by
        rcases h.list with hl | ⟨hl, -⟩
        · exact hL.symm.trans hl
        · exact absurd (hL.symm.trans hl) hempty
      rw [hF hempty, hsame, Nat.mul_one]
      omega
  lower todo hpos j := by
    rw [hpushed]
    rcases hat todo hpos with rfl | hpos
    · rcases h.list with hl | ⟨hl, hdel⟩
      · rw [← hL, hl]
        omega
      · exact Nat.le_add_right_of_le (h.done hdel j)
    · exact h.lower todo hpos j
  done hdel j := by
    rw [hpushed]
    exact h.done (hdeleted ▸ hdel) j

/-- A janitor pushes the next orphan. -/
theorem Accounted.restore {j : JobId} {todo : List JobId} (h : Accounted s₀ w s g)
    {g' : Mark → ℕ} (hdown : s'.down w = true)
    (hknown : ∀ j ∈ s₀.redis.lists (.processing w), j ∈ s'.ids ∧
      (s'.redis.jobs (.job j)).SameIdentity (s₀.redis.jobs (.job j)))
    (hlist : s'.redis.lists (.processing w) = s.redis.lists (.processing w))
    (hcur : 0 < g (.at (j :: todo)))
    (hpushed : ∀ j', g' (.pushed j') = (if j = j' then 1 else 0) + g (.pushed j'))
    (htodo : ∀ j', (if j = j' then 1 else 0) + g' (.todo j') = g (.todo j'))
    (hfound : g' .found = g .found) (hdeleted : g' .deleted = g .deleted)
    (hat : ∀ todo', 0 < g' (.at todo') → todo' = todo ∨ 0 < g (.at todo')) :
    Accounted s₀ w s' g' where
  down := hdown
  known := hknown
  list := by
    rw [hlist, hdeleted]
    exact h.list
  upper j' := by
    have hupper := h.upper j'
    have ht := htodo j'
    rw [hpushed, hfound]
    omega
  lower todo' hpos j' := by
    rw [hpushed]
    rcases hat todo' hpos with rfl | hpos
    · have hl := h.lower (j :: todo') hcur j'
      rw [List.count_cons] at hl
      by_cases hj : j = j'
      · simp only [hj, beq_self_eq_true, if_true] at hl ⊢
        omega
      · simp only [hj, beq_iff_eq, if_false] at hl ⊢
        omega
    · have hl := h.lower todo' hpos j'
      omega
  done hdel j' := by
    rw [hpushed]
    exact Nat.le_add_left_of_le (h.done (hdeleted ▸ hdel) j')

/-- A janitor that has pushed all its orphans deletes the list. -/
theorem Accounted.drop (h : Accounted s₀ w s g) {g' : Mark → ℕ} (hdown : s'.down w = true)
    (hknown : ∀ j ∈ s₀.redis.lists (.processing w), j ∈ s'.ids ∧
      (s'.redis.jobs (.job j)).SameIdentity (s₀.redis.jobs (.job j)))
    (hlist : s'.redis.lists (.processing w) = []) (hcur : 0 < g (.at []))
    (hpushed : ∀ j, g' (.pushed j) = g (.pushed j)) (htodo : ∀ j, g' (.todo j) ≤ g (.todo j))
    (hfound : g' .found = g .found) (hdeleted : 0 < g' .deleted)
    (hat : ∀ todo, g' (.at todo) ≤ g (.at todo)) : Accounted s₀ w s' g' where
  down := hdown
  known := hknown
  list := Or.inr ⟨hlist, hdeleted⟩
  upper j := by
    have hupper := h.upper j
    have ht := htodo j
    rw [hpushed, hfound]
    omega
  lower todo hpos j := by
    rw [hpushed]
    exact h.lower todo (hpos.trans_le (hat todo)) j
  done _ j := by
    rw [hpushed]
    simpa using h.lower [] hcur j

/-- **Step lemma.**  Every effect keeps account of the orphans. -/
theorem Accounted.effect (h : Accounted s₀ w s (burden (remaining w t l) + g)) (hup : t.up s)
    (haim : Aimed t l) (ha : aims s₀ w t l) (he : Effect env s t l c r s' l' ts) :
    Accounted s₀ w s' (burden (remaining w t l') + (counts s₀ w l c r + g)) := by
  have hdown : s'.down w = true := by
    rw [down_of_effect he]
    exact h.down
  have hknown := known_of_effect he ha h.known
  -- all but three commands push nothing back, delete nothing and take nothing off
  -- the list that the janitor has still to go through
  have keep : c ≠ .write (.del (redisKeys.processing w)) → (∀ k j, restores w k j l c = 0) →
      remaining w t l' = remaining w t l ∨ remaining w t l' = none →
      Accounted s₀ w s' (burden (remaining w t l') + (counts s₀ w l c r + g)) := by
    intro hdrop hpush hrem
    have hlist := list_of_effect he haim hup h.down hdrop
    have hle : burden (remaining w t l') ≤ burden (remaining w t l) := by
      rcases hrem with hrem | hrem
      · rw [hrem]
      · rw [hrem, burden_none]
        exact fun m => Nat.zero_le _
    have hpushed : ∀ j, counts s₀ w l c r (.pushed j) = 0 := by
      intro j
      simp [counts, hpush]
    have hdeleted : counts s₀ w l c r .deleted = 0 := by
      simp [counts, deletes_eq_zero hdrop]
    have htodo : ∀ j, counts s₀ w l c r (.todo j) = 0 := fun j => rfl
    have hat : ∀ todo, counts s₀ w l c r (.at todo) = 0 := fun todo => rfl
    constructor
    · exact hdown
    · exact hknown
    · rw [hlist]
      simpa [hdeleted] using h.list
    · intro j
      have hupper := h.upper j
      have hj : burden (remaining w t l') (.todo j) ≤ burden (remaining w t l) (.todo j) :=
        hle (.todo j)
      have hmul : (s₀.redis.lists (.processing w)).count j * g .found ≤
          (s₀.redis.lists (.processing w)).count j * (counts s₀ w l c r .found + g .found) :=
        Nat.mul_le_mul_left _ (Nat.le_add_left _ _)
      simp only [Pi.add_apply, burden_pushed, burden_found, zero_add, hpushed, htodo] at hupper ⊢
      omega
    · intro todo hpos j
      have hb : burden (remaining w t l') (.at todo) ≤ burden (remaining w t l) (.at todo) :=
        hle (.at todo)
      have hlower := h.lower todo ?_ j
      · simp only [Pi.add_apply, burden_pushed, zero_add, hpushed] at hlower ⊢
        exact hlower
      · simp only [Pi.add_apply, hat] at hpos ⊢
        omega
    · simpa [hdeleted, hpushed] using h.done
  cases he with
  | still hn hf hw =>
      refine keep ?_ (fun k j => restores_of_cmd ?_) (.inl rfl)
      · rintro rfl
        exact hn
      · rintro k j rfl
        exact hn
  -- the janitor takes the whole list on, if it is the list of this worker
  | @readOrphans w' =>
      by_cases hw : w' = w
      · subst hw
        have hnone : remaining w' .janitor (.found w') = none := rfl
        have hsome : remaining w' .janitor (.recovering w' (s.redis.lists (.processing w'))) =
            some (s.redis.lists (.processing w')) := if_pos rfl
        rw [hnone, burden_none, zero_add] at h
        rw [hsome]
        refine h.read rfl (F := finds w' (.lrange (redisKeys.processing w') 0 (-1))
          (.ok (s.redis.lists (.processing w')))) ?_ (fun _ => ?_) ?_ ?_ (fun _ => ?_) (fun todo hpos => ?_)
        · intro hne
          cases hl : s.redis.lists (.processing w') with
          | nil => exact absurd hl hne
          | cons j L => simp [finds]
        · simp [counts, restores]
        · simp [counts, deletes]
        · simp [counts]
        · simp [counts, burden_todo]
        · by_cases htodo : s.redis.lists (.processing w') = todo
          · exact Or.inl htodo.symm
          · right
            simpa [counts, burden_at, htodo] using hpos
      · refine keep (by simp) (fun _ _ => restores_of_cmd (by simp)) (.inr ?_)
        exact if_neg hw
  | @readOrphan w' j todo => exact keep (by simp) (fun _ _ => restores_of_cmd (by simp)) (.inl rfl)
  -- one entry goes from what is to be done to what has been pushed
  | @pushOrphan w' k j todo =>
      by_cases hw : w' = w
      · subst hw
        obtain ⟨-, rfl⟩ := ha rfl
        have hbefore : remaining w' .janitor (.routing w' (orphanHome s₀ j) j todo) =
            some (j :: todo) := if_pos rfl
        have hafter : remaining w' .janitor (.restored w' j todo) = some todo := if_pos rfl
        have he : Effect env s .janitor (.routing w' (orphanHome s₀ j) j todo)
            (.write (.lpush (orphanHome s₀ j) j)) (.ok ()) (s.push (orphanHome s₀ j) j)
            (.restored w' j todo) [] := .pushOrphan
        have hlist := list_of_effect he haim hup h.down (by simp)
        rw [hbefore] at h
        rw [hafter]
        have hcur : 0 < (burden (some (j :: todo)) + g) (.at (j :: todo)) := by simp [burden_at]
        refine h.restore hdown hknown hlist hcur (fun j' => ?_) (fun j' => ?_) ?_ ?_
          (fun todo' hpos => ?_)
        · by_cases hj : j = j'
          · simp [counts, restores, Except.isOk, Except.toBool, hj]
          · simp [counts, restores, hj]
        · simp [counts, burden_todo, List.count_cons]
          omega
        · simp [counts, finds]
        · simp [counts, deletes]
        · by_cases htodo : todo = todo'
          · exact Or.inl htodo.symm
          · right
            simpa [counts, burden_at, htodo] using Or.inr hpos
      · refine keep (by simp) (fun _ _ => if_neg (by simp [hw])) (.inr (if_neg hw))
  | @resetRow w' j todo p hp =>
      exact keep (by simp) (fun _ _ => restores_of_cmd (by simp)) (.inl rfl)
  -- the list is deleted when nothing of it is left to be pushed
  | @dropList w' =>
      by_cases hw : w' = w
      · subst hw
        have hbefore : remaining w' .janitor (.recovering w' []) = some [] := if_pos rfl
        have hafter : remaining w' .janitor (.deleted w') = none := rfl
        rw [hbefore] at h
        rw [hafter, burden_none, zero_add]
        refine h.drop hdown hknown (by simp [Write.apply]) ?_ (fun j => ?_) (fun j => ?_) ?_ ?_
          (fun todo => ?_)
        · simp [burden_at]
        · simp [counts, restores]
        · simp [counts, burden_todo]
        · simp [counts, finds]
        · simp [counts, deletes, Except.isOk, Except.toBool]
        · simp [counts]
      · refine keep ?_ (fun _ _ => restores_of_cmd (by simp)) (.inr rfl)
        intro hc
        exact hw (Key.processing.inj (Write.del.inj (Cmd.write.inj hc)))
  | handler | inert _ _ => exact keep (by simp) (fun _ _ => restores_of_cmd (by simp)) (.inl rfl)
  | draw _ _ _ _ | insert _ _ _ _ _ | insertFails _ _ _ _ | publishReady _ _ _ _
  | publishDelayed _ _ _ | cronFails _ _ =>
      refine keep (by simp) (fun _ _ => restores_of_cmd (by simp)) (.inr ?_)
      cases t <;> rfl
  | lift _ | readLifted _ | place _ =>
      refine keep (by simp) (fun _ _ => restores_of_phase (by simp)) (.inr ?_)
      cases t <;> rfl
  | pull hc _ _ | pullNothing hc =>
      refine keep ?_ (fun _ _ => restores_of_phase (by simp)) (.inr rfl)
      rcases hc with rfl | rfl <;> simp
  | clock _ | missing _ | readDue _ | readJob _ | settle =>
      exact keep (by simp) (fun _ _ => restores_of_cmd (by simp)) (.inr rfl)
  | _ => exact keep (by simp) (fun _ _ => restores_of_phase (by simp)) (.inr rfl)

/-- **Step lemma.**  A janitor knows the orphans it has read, and where they
belong. -/
theorem aims_effect (h : Accounted s₀ w s g) (ha : aims s₀ w t l)
    (he : Effect env s t l c r s' l' ts) : aims s₀ w t l' := by
  cases he with
  | still _ _ _ | handler | inert _ _ => exact ha
  | @draw t l id hc hp hid hne =>
      have hnew : id.text ∉ s₀.redis.lists (.processing w) := fun hmem => hid (h.known id hmem).1
      cases t <;> exact hnew
  | insert hc _ _ _ _ => cases t <;> exact ha
  | insertFails _ _ _ _ | publishReady _ _ _ _ | publishDelayed _ _ _ | cronFails _ _ | lift _
  | readLifted _ | place _ => cases t <;> trivial
  | @pull w' x v c r hc hv hpulled => cases truthy (some v) <;> trivial
  | @settle w' n j l => cases l <;> exact ha
  | @readOrphans w' =>
      rintro rfl
      rcases h.list with hl | ⟨hl, -⟩
      · rw [hl]
        exact List.Subset.refl _
      · rw [hl]
        exact List.nil_subset _
  | @readOrphan w' j todo =>
      rintro rfl
      have hsub := ha rfl
      have hid := (h.known j (hsub (List.mem_cons_self ..))).2
      exact ⟨hsub, by rw [orphanHome, hid.queueName, hid.priority]⟩
  | @pushOrphan w' k j todo =>
      rintro rfl
      exact fun j' hj' => (ha rfl).1 (List.mem_cons_of_mem _ hj')
  | resetRow hp => exact ha
  | _ => trivial

theorem aims_start (t : Task) : aims s₀ w t (Phase.start t) := by
  cases t with
  | requeue q b => rcases Phase.start_requeue q b with h | ⟨_, -, h⟩ <;> rw [h] <;> trivial
  | _ => trivial

theorem aims_error (ha : aims s₀ w t l) : aims s₀ w t (l.afterError t c) := by
  cases t with
  | processOne _ _ _ => cases c <;> first | exact ha | trivial
  | requeue _ _ => cases c <;> first | exact ha | (cases l <;> exact ha)
  | _ => trivial

/-- No task starts with orphans to push. -/
theorem remaining_start (t : Task) : remaining w t (Phase.start t) = none := by
  cases t <;> rfl

/-- After a rejection a task pushes no more orphans. -/
theorem remaining_error : remaining w t (l.afterError t c) = none := by
  cases t <;> rfl

/-- A rejected command counts for nothing. -/
theorem counts_error (e : Err) : counts s₀ w l c (.error e) = 0 := by
  have hfinds : finds w c (.error e) = 0 := by
    unfold finds
    split
    · rename_i h
      cases h
    · rfl
  funext m
  cases m <;> simp [counts, hfinds, Except.isOk, Except.toBool]

/-- A burden that is dropped changes nothing else. -/
theorem Accounted.unburden {x : Option (List JobId)} (h : Accounted s₀ w s (burden x + g)) :
    Accounted s₀ w s g where
  down := h.down
  known := h.known
  list := by simpa using h.list
  upper j := by
    have hj := h.upper j
    simp only [Pi.add_apply, burden_pushed, burden_found, zero_add] at hj
    omega
  lower todo hpos j := by
    have hj := h.lower todo (by rw [Pi.add_apply]; omega) j
    simpa using hj
  done hdel j := by
    have hj := h.done (by simpa using hdel) j
    simpa using hj

/-- **Recovery is a sound discipline whatever happens.** -/
theorem recovery_sound : (recovery env s₀ w).Sound Anything where
  follows t _ := custody_follows t
  call s t l c o r s' F h := by
    have hforks : (recovery env s₀ w).starts ((machine env).forks t c r) = 0 :=
      (recovery env s₀ w).starts_eq_zero _ fun t' _ => by
        change burden (remaining w t' (Phase.start t')) = 0
        rw [remaining_start, burden_none]
    rw [hforks, add_zero]
    refine ⟨?_, ?_, fun t' _ => ⟨trivial, aimed_start t', aims_start t'⟩⟩
    · obtain ⟨hup, ⟨err, -, -, rfl, rfl⟩ | ⟨-, ha⟩⟩ := exec_cases h.exec
      · change Accounted s₀ w s' (burden (remaining w t (l.afterError t c)) +
          (counts s₀ w l c (.error err) + F))
        rw [remaining_error, burden_none, counts_error, zero_add, zero_add]
        exact Accounted.unburden h.inv
      · exact Accounted.effect h.inv hup h.loc.1 h.loc.2 (effect_of_answer h.permits ha)
    · rcases (exec_cases h.exec).2 with ⟨err, -, -, rfl, rfl⟩ | ⟨-, ha⟩
      · exact ⟨aimed_error h.loc.1 c, aims_error h.loc.2⟩
      · have he := effect_of_answer h.permits ha
        exact ⟨aimed_of_effect he h.loc.1, aims_effect h.inv h.loc.2 he⟩
  stable _ _ _ _ _ _ _ _ _ _ _ _ _ _ hk := hk
  start c t _ hc := by
    refine ⟨trivial, ?_, aimed_start t, aims_start t⟩
    change Accounted s₀ w c.store (burden (remaining w t (Phase.start t)) + _)
    rw [remaining_start, burden_none, zero_add]
    exact hc.1
  allows _ _ _ _ _ _ _ _ _ _ := trivial
  drift c d s' _ hc hd := by
    refine ⟨?_, fun _ _ _ hk => hk⟩
    have hdown := down_of_drift hd hc.1.down
    cases d <;> cases hd <;>
      exact ⟨hdown, hc.1.known, hc.1.list, hc.1.upper, hc.1.lower, hc.1.done⟩

end Step

section Result

variable {env : Env} {c₀ c : State}

/-- **A recovery restores every orphan.**  From any stores in which worker `w` is
down, in every run, whatever fails: once the processing list of `w` has been deleted,
each of its entries has been pushed to its ready list at least as often as it was in
the list, and at most that often for every read that found entries. -/
theorem restored_once_per_read (hpool : c₀.pool = []) {w : WorkerId}
    (hdown : c₀.store.down w = true)
    (hids : ∀ j ∈ c₀.store.redis.lists (redisKeys.processing w), j ∈ c₀.store.ids)
    (hc : (machine env).Reach Anything (· = c₀) c) (hdel : 0 < deletions env c w) (j : JobId) :
    (c₀.store.redis.lists (redisKeys.processing w)).count j ≤
        restorations env c w (orphanHome c₀.store j) j ∧
      restorations env c w (orphanHome c₀.store j) j ≤
        (c₀.store.redis.lists (redisKeys.processing w)).count j * findings env c w := by
  have hinit : ∀ c, c = c₀ → (recovery env c₀.store w).PoolOk c := by
    rintro c rfl
    rw [Discipline.PoolOk, hpool]
    refine ⟨⟨hdown, fun j hj => ⟨hids j hj, .refl _⟩, Or.inl rfl, ?_, ?_, ?_⟩, by simp⟩
    · intro j
      simp [Discipline.total]
    · intro todo hpos
      exact absurd hpos (lt_irrefl 0)
    · intro hpos
      exact absurd hpos (lt_irrefl 0)
  obtain ⟨hacc, -⟩ := recovery_sound.reach hinit hc
  have hpushed : (recovery env c₀.store w).total c.pool (.pushed j) =
      restorations env c w (orphanHome c₀.store j) j :=
    (recovery env c₀.store w).total_eq_counted _ (fun _ _ => rfl) (fun _ _ _ _ => rfl) _
  have hfound : (recovery env c₀.store w).total c.pool .found = findings env c w :=
    (recovery env c₀.store w).total_eq_counted _ (fun _ _ => rfl) (fun _ _ _ _ => rfl) _
  have hdeleted : (recovery env c₀.store w).total c.pool .deleted = deletions env c w :=
    (recovery env c₀.store w).total_eq_counted _ (fun _ _ => rfl) (fun _ _ _ _ => rfl) _
  have hupper := hacc.upper j
  have hdone := hacc.done (hdeleted ▸ hdel) j
  change (recovery env c₀.store w).total c.pool (.pushed j) +
    (recovery env c₀.store w).total c.pool (.todo j) ≤ _ at hupper
  rw [hpushed, hfound] at hupper
  rw [hpushed] at hdone
  exact ⟨hdone, (Nat.le_add_right _ _).trans hupper⟩

/-- A crashed worker with one job on its processing list. -/
def orphaned : State where
  store :=
    { redis :=
        { lists := Function.update (fun _ => []) (.processing "w1") [j1.text]
          sets := Function.update (fun _ => ∅) .workers {"w1"} }
      ids := {j1.text}
      down := Function.update (fun _ => false) "w1" true }
  pool := []

/-- The theorem on a run in which the first janitor halts after its push, and a second
one recovers the worker. -/
theorem restored_once_per_read_after_halt :
    ∃ c, (machine sample).Reach Anything (· = orphaned) c ∧ findings sample c "w1" = 2 ∧
      (orphaned.store.redis.lists (redisKeys.processing "w1")).count j1.text ≤
          restorations sample c "w1" (orphanHome orphaned.store j1.text) j1.text ∧
        restorations sample c "w1" (orphanHome orphaned.store j1.text) j1.text ≤
          (orphaned.store.redis.lists (redisKeys.processing "w1")).count j1.text *
            findings sample c "w1" := by
  obtain ⟨c, hc, ht⟩ := Machine.exists_reach (machine sample) Anything (· = orphaned) rfl
    ([.start .janitor, .call 0 (.members ["w1"])] ++ goes 0 4 ++ [.halt 0, .start .janitor,
      .call 1 (.members ["w1"])] ++ goes 1 9)
    (fun c => decide (findings sample c "w1" = 2 ∧ 0 < deletions sample c "w1"))
    (by decide +kernel)
  obtain ⟨hfound, hdel⟩ := of_decide_eq_true ht
  have hids : ∀ j ∈ orphaned.store.redis.lists (redisKeys.processing "w1"),
      j ∈ orphaned.store.ids := by decide +kernel
  exact ⟨c, hc, hfound, restored_once_per_read rfl (by decide +kernel) hids hc hdel j1.text⟩

/-- Two janitors that have both read the list both push its entry. -/
theorem restored_twice :
    ∃ c, (machine sample).Reach Reliable (· = orphaned) c ∧ 0 < deletions sample c "w1" ∧
      (orphaned.store.redis.lists (redisKeys.processing "w1")).count j1.text = 1 ∧
      restorations sample c "w1" (orphanHome orphaned.store j1.text) j1.text = 2 := by
  obtain ⟨c, hc, ht⟩ := Machine.exists_reach (machine sample) Reliable (· = orphaned) rfl
    ([.start .janitor, .start .janitor, .call 0 (.members ["w1"]), .call 1 (.members ["w1"])] ++
      goes 0 2 ++ goes 1 2 ++ goes 0 7 ++ goes 1 7)
    (fun c => decide (0 < deletions sample c "w1" ∧
      restorations sample c "w1" (orphanHome orphaned.store j1.text) j1.text = 2)) (by decide +kernel)
  obtain ⟨hdel, htwo⟩ := of_decide_eq_true ht
  exact ⟨c, hc, hdel, by decide +kernel, htwo⟩

end Result

end Recovery

end NexusQueue
