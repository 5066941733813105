/-
# Token buckets

A bucket with a capacity is refilled at a constant rate.  It is stored as the number of
tokens at the time of the last refill, so between two decisions its level is a line, cut
off at the capacity.  A decision at time `t` writes the refilled level back, less one
token if it grants a request.

The bound on the requests granted in a window needs no order on the times of the
decisions: every grant in a window lowers the line by one, and nothing raises it above
the line of a bucket that was full at the beginning of the window.
-/
import Mathlib.Tactic

namespace TokenBucket

variable {K : Type} [Field K]

/-- A bucket: so many tokens at that time. -/
structure Bucket (K : Type) where
  tokens : K
  last : K

variable {cap rate t : K} {b : Option (Bucket K)} {n n' : K → K → ℕ}

/-- The level of a bucket at time `t`, if it had no capacity. -/
def Bucket.level (rate : K) (b : Bucket K) (t : K) : K := b.tokens + (t - b.last) * rate

/-- The line through a level that has just been written. -/
theorem level_written (x z : K) : (Bucket.mk x t).level rate z = x + (z - t) * rate := rfl

/-- The line of a bucket, seen from another time. -/
theorem level_add (b : Bucket K) (z : K) :
    b.level rate t + (z - t) * rate = b.level rate z := by
  unfold Bucket.level
  ring

variable [LinearOrder K]

/-- The tokens at time `t`; a bucket that does not exist yet is full. -/
def refill (cap rate : K) (b : Option (Bucket K)) (t : K) : K :=
  b.elim cap fun b => min cap (b.level rate t)

theorem refill_le_cap : refill cap rate b t ≤ cap := by
  cases b with
  | none => exact le_rfl
  | some b => exact min_le_left _ _

theorem refill_le_level {b : Bucket K} : refill cap rate (some b) t ≤ b.level rate t :=
  min_le_right _ _

variable [IsStrictOrderedRing K]

/-- The number `n a z` of requests granted in the window from `a` to `z` is bounded, and
the level at the end of the window makes up for them. -/
structure Bounded (cap rate : K) (b : Option (Bucket K)) (n : K → K → ℕ) : Prop where
  window : ∀ a z, a ≤ z → (n a z : K) ≤ cap + rate * (z - a)
  level : ∀ a z, a ≤ z → 0 < n a z →
    ∃ b' ∈ b, b'.level rate z ≤ cap - n a z + rate * (z - a)

/-- Nothing has been granted. -/
theorem bounded_zero (hcap : 0 ≤ cap) (hrate : 0 ≤ rate) (b : Option (Bucket K)) :
    Bounded cap rate b fun _ _ => 0 where
  window a z haz := by
    have hrefill : 0 ≤ rate * (z - a) := mul_nonneg hrate (sub_nonneg.mpr haz)
    simpa using add_nonneg hcap hrefill
  level a z _ hpos := absurd hpos (lt_irrefl 0)

/-- Fewer requests are granted. -/
theorem Bounded.fewer (h : Bounded cap rate b n) (hle : ∀ a z, n' a z ≤ n a z) :
    Bounded cap rate b n' where
  window a z haz := by
    have hcount : (n' a z : K) ≤ n a z := by exact_mod_cast hle a z
    exact hcount.trans (h.window a z haz)
  level a z haz hpos := by
    obtain ⟨b', hb', hlevel⟩ := h.level a z haz (hpos.trans_le (hle a z))
    have hcount : (n' a z : K) ≤ n a z := by exact_mod_cast hle a z
    exact ⟨b', hb', by linarith⟩

/-- A request is denied. -/
theorem Bounded.deny (h : Bounded cap rate b n) (t : K) :
    Bounded cap rate (some ⟨refill cap rate b t, t⟩) n where
  window := h.window
  level a z haz hpos := by
    obtain ⟨b', rfl, hlevel⟩ := h.level a z haz hpos
    refine ⟨_, rfl, ?_⟩
    rw [level_written]
    calc refill cap rate (some b') t + (z - t) * rate
        ≤ b'.level rate t + (z - t) * rate := by gcongr; exact refill_le_level
      _ = b'.level rate z := level_add b' z
      _ ≤ cap - n a z + rate * (z - a) := hlevel

/-- A request is granted. -/
theorem Bounded.grant (h : Bounded cap rate b n) (hrate : 0 ≤ rate)
    (hone : 1 ≤ refill cap rate b t) :
    Bounded cap rate (some ⟨refill cap rate b t - 1, t⟩)
      fun a z => n a z + if a ≤ t ∧ t ≤ z then 1 else 0 where
  window a z haz := by
    have hwindow := h.window a z haz
    by_cases hin : a ≤ t ∧ t ≤ z
    · simp only [hin, and_self, if_true, Nat.cast_add, Nat.cast_one]
      rcases Nat.eq_zero_or_pos (n a z) with hzero | hpos
      · have hcap : 1 ≤ cap := hone.trans refill_le_cap
        have hrefill : 0 ≤ rate * (z - a) := mul_nonneg hrate (sub_nonneg.mpr haz)
        rw [hzero, Nat.cast_zero]
        linarith
      · -- the token was there, and the line has only risen since
        obtain ⟨b', rfl, hlevel⟩ := h.level a z haz hpos
        have htoken : 1 ≤ b'.level rate t := hone.trans refill_le_level
        have hrise : 0 ≤ (z - t) * rate := mul_nonneg (sub_nonneg.mpr hin.2) hrate
        have hline : b'.level rate t + (z - t) * rate = b'.level rate z := level_add b' z
        linarith
    · simpa [hin] using hwindow
  level a z haz hpos := by
    refine ⟨_, rfl, ?_⟩
    rw [level_written]
    by_cases hold : 0 < n a z
    · obtain ⟨b', rfl, hlevel⟩ := h.level a z haz hold
      have hrefill : refill cap rate (some b') t ≤ b'.level rate t := refill_le_level
      have hline : b'.level rate t + (z - t) * rate = b'.level rate z := level_add b' z
      by_cases hin : a ≤ t ∧ t ≤ z
      · simp only [hin, and_self, if_true, Nat.cast_add, Nat.cast_one]
        linarith
      · simp only [hin, if_false, Nat.add_zero]
        linarith
    · -- the first grant in the window: the bucket was at most full
      have hzero : n a z = 0 := by omega
      have hin : a ≤ t ∧ t ≤ z := by
        by_contra hout
        simp [hzero, hout] at hpos
      have hfull : refill cap rate b t ≤ cap := refill_le_cap
      have hrise : rate * (t - a) + (z - t) * rate = rate * (z - a) := by ring
      have hlate : 0 ≤ rate * (t - a) := mul_nonneg hrate (sub_nonneg.mpr hin.1)
      simp only [hzero, hin, and_self, if_true, Nat.zero_add, Nat.cast_one]
      linarith

/-! ## Requests in order -/

section Asking

/-- A request at time `t`: it is granted if there is a token, and the bucket is written
back. -/
def ask (cap rate : K) (b : Option (Bucket K)) (t : K) : Bool × Bucket K :=
  if 1 ≤ refill cap rate b t then (true, ⟨refill cap rate b t - 1, t⟩)
  else (false, ⟨refill cap rate b t, t⟩)

/-- The answers to requests at these times, one after another. -/
def asks (cap rate : K) : Option (Bucket K) → List K → List Bool
  | _, [] => []
  | b, t :: ts => (ask cap rate b t).1 :: asks cap rate (some (ask cap rate b t).2) ts

/-- The bucket after requests at these times. -/
def after (cap rate : K) : Option (Bucket K) → List K → Option (Bucket K)
  | b, [] => b
  | b, t :: ts => after cap rate (some (ask cap rate b t).2) ts

variable {ts us : List K} {z : K}

omit [IsStrictOrderedRing K] in
@[simp] theorem length_asks : (asks cap rate b ts).length = ts.length := by
  induction ts generalizing b with
  | nil => rfl
  | cons t ts ih => simp [asks, ih]

omit [IsStrictOrderedRing K] in
/-- The answers to more requests. -/
theorem asks_append :
    asks cap rate b (ts ++ us) = asks cap rate b ts ++ asks cap rate (after cap rate b ts) us := by
  induction ts generalizing b with
  | nil => rfl
  | cons t ts ih => simp [asks, after, ih]

omit [IsStrictOrderedRing K] in
/-- A granted request finds a token. -/
theorem one_le_of_granted (h : (ask cap rate b t).1 = true) : 1 ≤ refill cap rate b t := by
  unfold ask at h
  split at h
  · assumption
  · cases h

/-- What a request leaves in the bucket is refilled, less what it was granted. -/
theorem ask_tokens : (ask cap rate b t).2.tokens +
    ([(ask cap rate b t).1].count true : ℕ) = refill cap rate b t ∧ (ask cap rate b t).2.last = t := by
  unfold ask
  split <;> simp

/-- Requests only lower the line of a bucket, each granted one by one. -/
theorem level_after {b b' : Bucket K} (h : after cap rate (some b) ts = some b') (z : K) :
    b'.level rate z + ((asks cap rate (some b) ts).count true : ℕ) ≤ b.level rate z := by
  induction ts generalizing b with
  | nil =>
      cases h
      simp [asks]
  | cons t ts ih =>
      obtain ⟨htokens, hlast⟩ := @ask_tokens K _ cap rate t (some b) _ _
      have hrest := ih h
      have hline : b.level rate t + (z - t) * rate = b.level rate z := level_add b z
      have hfound : refill cap rate (some b) t ≤ b.level rate t := refill_le_level
      have hnew : (ask cap rate (some b) t).2.level rate z =
          (ask cap rate (some b) t).2.tokens + (z - t) * rate := by
        rw [Bucket.level, hlast]
      have hcount : ((asks cap rate (some b) (t :: ts)).count true : ℕ) =
          [(ask cap rate (some b) t).1].count true +
            (asks cap rate (some (ask cap rate (some b) t).2) ts).count true := by
        rw [asks, ← List.count_append]
        rfl
      rw [hcount]
      push_cast
      linarith

/-- **The bound on granted requests, in order.**  The requests granted from a first one
at time `a` to one that is granted at time `z` are at most the capacity and what is
refilled between the two readings of the clock, which need not be in order. -/
theorem count_asks_le {a : K} (hhead : (ts ++ [z]).head? = some a)
    (hlast : (ask cap rate (after cap rate b ts) z).1 = true) :
    ((asks cap rate b (ts ++ [z])).count true : K) ≤ cap + rate * (z - a) := by
  have hone := one_le_of_granted hlast
  have hcount : (asks cap rate b (ts ++ [z])).count true = (asks cap rate b ts).count true + 1 := by
    rw [asks_append, List.count_append]
    simp [asks, hlast]
  rw [hcount]
  push_cast
  cases ts with
  | nil =>
      cases hhead
      have hcap : 1 ≤ cap := hone.trans refill_le_cap
      simpa [asks] using hcap
  | cons t ts =>
      cases hhead
      obtain ⟨htokens, hat⟩ := @ask_tokens K _ cap rate a b _ _
      obtain ⟨b', hb'⟩ : ∃ b', after cap rate (some (ask cap rate b a).2) ts = some b' := by
        generalize (ask cap rate b a).2 = b₁
        clear hlast hone hcount htokens hat
        induction ts generalizing b₁ with
        | nil => exact ⟨b₁, rfl⟩
        | cons t ts ih => exact ih _
      have hlevel := level_after hb' z
      have hfull : refill cap rate b a ≤ cap := refill_le_cap
      have hfirst : (ask cap rate b a).2.level rate z =
          (ask cap rate b a).2.tokens + (z - a) * rate := by
        rw [Bucket.level, hat]
      have htoken : 1 ≤ b'.level rate z := by
        change 1 ≤ refill cap rate (after cap rate (some (ask cap rate b a).2) ts) z at hone
        rw [hb'] at hone
        exact hone.trans refill_le_level
      have hsplit : (asks cap rate b (a :: ts)).count true = [(ask cap rate b a).1].count true +
          (asks cap rate (some (ask cap rate b a).2) ts).count true := by
        rw [asks, ← List.count_append]
        rfl
      rw [hsplit]
      push_cast
      linarith

omit [IsStrictOrderedRing K] in
/-- A request that finds no token leaves the bucket on its line. -/
theorem ask_denied {b : Bucket K} (hcap : 1 ≤ cap) (h : b.level rate t < 1) :
    ask cap rate (some b) t = (false, ⟨b.level rate t, t⟩) := by
  have hlow : b.level rate t ≤ cap := (h.trans_le hcap).le
  have hrefill : refill cap rate (some b) t = b.level rate t := min_eq_right hlow
  rw [ask, hrefill, if_neg (not_le.mpr h)]

omit [IsStrictOrderedRing K] in
/-- **Denied until there is a token.**  As long as the line of the bucket is below one, a
request is granted exactly if it comes when the line has reached one. -/
theorem asks_line {b : Bucket K} (hcap : 1 ≤ cap) {k : ℕ} (hk : ts[k]? = some t)
    (hbelow : ∀ i < k, ∀ s, ts[i]? = some s → b.level rate s < 1) :
    (asks cap rate (some b) ts)[k]? = some (decide (1 ≤ b.level rate t)) := by
  induction ts generalizing b k with
  | nil => cases hk
  | cons s ts ih =>
      cases k with
      | zero =>
          obtain rfl : s = t := by simpa using hk
          simp only [asks, List.getElem?_cons_zero, Option.some.injEq]
          by_cases hlevel : 1 ≤ b.level rate s
          · have hone : 1 ≤ refill cap rate (some b) s := le_min hcap hlevel
            simp [ask, hone, hlevel]
          · rw [ask_denied hcap (not_le.mp hlevel)]
            simp [hlevel]
      | succ k =>
          have hfirst : b.level rate s < 1 := hbelow 0 (Nat.succ_pos k) s rfl
          have hsame : ∀ u, (Bucket.mk (b.level rate s) s).level rate u = b.level rate u :=
            fun u => level_add b u
          rw [asks, ask_denied hcap hfirst, List.getElem?_cons_succ, ← hsame t]
          refine ih (by simpa using hk) fun i hi u hu => ?_
          rw [hsame]
          exact hbelow (i + 1) (Nat.succ_lt_succ hi) u (by simpa using hu)

end Asking

end TokenBucket
