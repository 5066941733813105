/-
# Counting who holds what

Processes that hold at most one thing each, and things that are in exactly one
place.

* `holding`: the count of a single holder, so that a discipline may say what a
  process holds as an `Option`; `holders` and `counted` are the number of
  processes that hold something and the number of events that count for it, and
  `total_eq_holders` and `total_eq_counted` read them off the total of a
  discipline.
* `Placed e f`: the thing exists exactly if `e`, and then it is in exactly one of
  the places counted by `f`.  A step that takes one from a place and adds one to
  another keeps it placed (`Placed.move`), and a thing comes into being by being
  added to one place (`Placed.arrive`).
-/
import NexusQueue.Discipline

section Counting

variable {S T C : Type} {R : C → Type} {E A O D L K : Type}
variable {M : Machine S T C R E A O D} {P : Protocol T C R E L}

/-- How often something has happened in a pool: the events of all processes, each
judged in the phase it happened in. -/
def counted (P : Protocol T C R E L) (counts : T → L → (c : C) → Except E (R c) → ℕ)
    (pool : List (Proc T C R E A)) : ℕ :=
  (pool.map fun p => P.tally counts p.task p.hist).sum

/-- Counting nothing adds nothing. -/
theorem Protocol.tally_zero {G : Type} [AddCommMonoid G] (P : Protocol T C R E L) (t : T)
    (h : List (Event C R E)) : P.tally (fun _ _ _ _ => (0 : G)) t h = 0 := by
  induction h with
  | nil => rfl
  | cons e h ih => simp [Protocol.tally, ih]

/-- A tally of many things, at one of them. -/
theorem Protocol.tally_apply (P : Protocol T C R E L)
    (emit : T → L → (c : C) → Except E (R c) → K → ℕ) (t : T) (h : List (Event C R E)) (k : K) :
    P.tally emit t h k = P.tally (fun t l c r => emit t l c r k) t h := by
  induction h with
  | nil => rfl
  | cons e h ih => simp [Protocol.tally, ih]

/-- The total of a discipline that counts things, at one of them: what the
processes hold of it and how often it has happened. -/
theorem Discipline.total_apply (Δ : Discipline M P (K → ℕ)) (pool : List (Proc T C R E A))
    (k : K) : Δ.total pool k =
      (pool.map fun p => Δ.val p.task (P.phase p.task p.hist) k).sum +
        counted P (fun t l c r => Δ.emit t l c r k) pool := by
  induction pool with
  | nil => rfl
  | cons p pool ih =>
      have hcons : Δ.total (p :: pool) = Δ.gauge p + Δ.total pool := by
        simp [Discipline.total]
      rw [hcons, Pi.add_apply, ih, Discipline.gauge, Pi.add_apply, Protocol.tally_apply]
      simp only [counted, List.map_cons, List.sum_cons]
      omega

/-- The total of something nobody holds is how often it has happened. -/
theorem Discipline.total_eq_counted (Δ : Discipline M P (K → ℕ)) {k : K}
    (counts : T → L → (c : C) → Except E (R c) → ℕ) (hval : ∀ t l, Δ.val t l k = 0)
    (hemit : ∀ t l c r, Δ.emit t l c r k = counts t l c r) (pool : List (Proc T C R E A)) :
    Δ.total pool k = counted P counts pool := by
  rw [Discipline.total_apply]
  simp only [hval, hemit]
  simp

/-- Counting the events that yield one thing counts it among all that events have yielded. -/
theorem counted_eq_count [DecidableEq K] (f : T → Event C R E → Option K) (k : K)
    (pool : List (Proc T C R E A)) :
    counted P (fun t _ c r => if f t ⟨c, r⟩ = some k then 1 else 0) pool =
      (pool.flatMap fun p => p.hist.filterMap (f p.task)).count k := by
  have hist : ∀ t (h : List (Event C R E)),
      P.tally (fun t _ c r => if f t ⟨c, r⟩ = some k then 1 else 0) t h =
        (h.filterMap (f t)).count k := by
    intro t h
    induction h with
    | nil => rfl
    | cons e h ih =>
        rw [Protocol.tally, ih]
        cases hk : f t e with
        | none => simp [hk]
        | some k' =>
            rw [List.filterMap_cons_some hk, List.count_cons, add_comm]
            simp
  induction pool with
  | nil => rfl
  | cons p pool ih =>
      show P.tally _ p.task p.hist + counted P _ pool = _
      rw [ih, hist, List.flatMap_cons, List.count_append]

/-- Nothing is the total of something no process holds and no event counts for. -/
theorem Discipline.total_eq_zero (Δ : Discipline M P (K → ℕ)) {k : K}
    {pool : List (Proc T C R E A)}
    (hval : ∀ p ∈ pool, Δ.val p.task (P.phase p.task p.hist) k = 0)
    (hemit : ∀ t l c r, Δ.emit t l c r k = 0) : Δ.total pool k = 0 := by
  rw [Discipline.total_apply]
  simp only [hemit, counted, Protocol.tally_zero]
  rw [List.sum_eq_zero (by simpa using hval)]
  simp

end Counting

section Holding

variable {K : Type} [DecidableEq K]

/-- One of `k` if that is what is held. -/
def holding (x : Option K) : K → ℕ := fun k => if x = some k then 1 else 0

@[simp] theorem holding_none : holding (none : Option K) = 0 := by
  funext k
  simp [holding]

/-- Holding nothing adds nothing. -/
theorem holding_none_add {f : K → ℕ} : holding none + f = f := by
  rw [holding_none, zero_add]

@[simp] theorem holding_some (a k : K) : holding (some a) k = if a = k then 1 else 0 := by
  simp [holding]

variable {S T C : Type} {R : C → Type} {E A O D L : Type}
variable {M : Machine S T C R E A O D} {P : Protocol T C R E L}

/-- The processes of a pool that hold `k`. -/
def holders (P : Protocol T C R E L) (token : T → L → Option K) (pool : List (Proc T C R E A))
    (k : K) : ℕ :=
  pool.countP fun p => token p.task (P.phase p.task p.hist) = some k

/-- The total of something that is only held, by one process each, is the number of
its holders. -/
theorem Discipline.total_eq_holders {K' : Type} (Δ : Discipline M P (K' → ℕ))
    (token : T → L → Option K) {k : K} {k' : K'}
    (hval : ∀ t l, Δ.val t l k' = holding (token t l) k)
    (hemit : ∀ t l c r, Δ.emit t l c r k' = 0) (pool : List (Proc T C R E A)) :
    Δ.total pool k' = holders P token pool k := by
  have hnone : counted P (fun t l c r => Δ.emit t l c r k') pool = 0 := by
    simp only [hemit, counted, Protocol.tally_zero]
    simp
  rw [Discipline.total_apply, hnone, add_zero]
  simp only [hval]
  clear hnone
  induction pool with
  | nil => rfl
  | cons p pool ih =>
      rw [List.map_cons, List.sum_cons, ih, holders, holders, List.countP_cons, add_comm]
      simp [holding]

/-- The total of a discipline of tokens is the number of holders. -/
theorem Discipline.total_holding (Δ : Discipline M P (K → ℕ)) (token : T → L → Option K)
    (hval : ∀ t l, Δ.val t l = holding (token t l)) (hemit : Δ.emit = fun _ _ _ _ => 0)
    (pool : List (Proc T C R E A)) : Δ.total pool = holders P token pool := by
  funext k
  refine Δ.total_eq_holders token (fun t l => by rw [hval]) (fun t l c r => ?_) pool
  rw [hemit]
  rfl

end Holding

/-! ## Exactly one place -/

section Placed

variable {ι : Type} [DecidableEq ι]

/-- The thing exists exactly if `e`, and then it is in exactly one place. -/
structure Placed (e : Prop) (f : ι → ℕ) : Prop where
  one : e → ∃ o, f = Pi.single o 1
  none : ¬ e → f = 0

variable {e : Prop} {f f' : ι → ℕ} {a b : ι}

/-- Where the thing is counted, it exists, and it is nowhere else. -/
theorem Placed.eq_single (h : Placed e f) (ha : 0 < f a) : e ∧ f = Pi.single a 1 := by
  have he : e := by
    by_contra hne
    rw [h.none hne] at ha
    simp at ha
  obtain ⟨o, ho⟩ := h.one he
  have hoa : a = o := by
    by_contra hne
    rw [ho, Pi.single_eq_of_ne hne] at ha
    simp at ha
  exact ⟨he, hoa ▸ ho⟩

/-- Nothing is counted twice. -/
theorem Placed.le_one (h : Placed e f) (ha : 0 < f a) (o : ι) : f o = if o = a then 1 else 0 := by
  rw [(h.eq_single ha).2, Pi.single_apply]

/-- However many places are looked at, the thing is counted at most once. -/
theorem Placed.sum_le_one (h : Placed e f) {l : List ι} (hl : l.Nodup) : (l.map f).sum ≤ 1 := by
  induction l with
  | nil => exact Nat.zero_le 1
  | cons a l ih =>
      rw [List.nodup_cons] at hl
      rw [List.map_cons, List.sum_cons]
      rcases Nat.eq_zero_or_pos (f a) with hzero | hpos
      · rw [hzero, zero_add]
        exact ih hl.2
      · have hrest : (l.map f).sum = 0 := by
          refine List.sum_eq_zero fun n hn => ?_
          obtain ⟨o, ho, rfl⟩ := List.mem_map.mp hn
          rw [h.le_one hpos, if_neg]
          rintro rfl
          exact hl.1 ho
        have hone : f a = 1 := by rw [h.le_one hpos, if_pos rfl]
        omega

/-- The thing moves from `a` to `b`. -/
theorem Placed.move (h : Placed e f) (hout : f' a + 1 = f a) (hin : f' b = f b + 1)
    (hrest : ∀ o, o ≠ a → o ≠ b → f' o = f o) : Placed e f' := by
  obtain ⟨he, hf⟩ := h.eq_single (a := a) (by omega)
  have hab : b ≠ a := by
    rintro rfl
    omega
  refine ⟨fun _ => ⟨b, ?_⟩, fun hne => absurd he hne⟩
  funext o
  rw [hf] at hout hin
  rw [Pi.single_eq_same] at hout
  rw [Pi.single_eq_of_ne hab] at hin
  by_cases hob : o = b
  · rw [hob, hin, Pi.single_eq_same]
  · rw [Pi.single_eq_of_ne hob]
    by_cases hoa : o = a
    · rw [hoa]
      omega
    · rw [hrest o hoa hob, hf, Pi.single_eq_of_ne hoa]

/-- The thing comes into being at `b`. -/
theorem Placed.arrive {e' : Prop} (h : Placed e f) (he : ¬ e) (he' : e') (hin : f' b = f b + 1)
    (hrest : ∀ o, o ≠ b → f' o = f o) : Placed e' f' := by
  refine ⟨fun _ => ⟨b, ?_⟩, fun hne => absurd he' hne⟩
  funext o
  rw [h.none he] at hin
  by_cases hob : o = b
  · rw [hob, hin, Pi.single_eq_same]
    rfl
  · rw [hrest o hob, h.none he, Pi.single_eq_of_ne hob]
    rfl

end Placed
